import Splice.Json.Reader
import Splice.Json.Writer
import Splice.Proofs.Escape

namespace Splice

theorem bind_some_eq_map {α β : Type} (x : Option α) (f : α → β) :
    (x.bind fun a => some (f a)) = x.map f := by
  cases x <;> rfl

namespace Json

namespace Token

def isPlain (c : Char) : Bool :=
  !isSpace c && c != '"' && (punctuation? c).isNone

section

variable {cs : List Char}

theorem isPlain_of_isDigit {c : Char} (h : isDigit c) : isPlain c := by
  have all : ∀ n < 58, 48 ≤ n → isPlain (Char.ofNat n) := by decide
  simp only [isDigit, Bool.and_eq_true, decide_eq_true_eq, Char.le_def, UInt32.le_iff_toNat_le] at h
  rw [← Char.ofNat_toNat c]
  exact all _ (Nat.lt_succ_of_le h.2) h.1

theorem isPlain_of_areDigits (h : areDigits cs) : ∀ c ∈ cs, isPlain c := by
  simp only [areDigits, Bool.and_eq_true, List.all_eq_true] at h
  exact fun c hc => isPlain_of_isDigit (h.2 c hc)

theorem isPlain_of_isExponent (h : isExponent cs) : ∀ c ∈ cs, isPlain c := by
  have hletter {e : Char} (h : e = 'e' ∨ e = 'E') : isPlain e := by
    rcases h with rfl | rfl <;> decide
  fun_cases isExponent cs <;>
    simp only [isExponent, Bool.and_eq_true, Bool.or_eq_true, beq_iff_eq] at h
  case case1 => simp
  case case2 => exact List.forall_mem_cons.mpr ⟨hletter h.1, List.forall_mem_cons.mpr
      ⟨by decide, isPlain_of_areDigits h.2⟩⟩
  case case3 => exact List.forall_mem_cons.mpr ⟨hletter h.1, List.forall_mem_cons.mpr
      ⟨by decide, isPlain_of_areDigits h.2⟩⟩
  case case4 =>
    exact List.forall_mem_cons.mpr ⟨hletter h.1, isPlain_of_areDigits h.2⟩

theorem isPlain_of_isFraction (h : isFraction cs) : ∀ c ∈ cs, isPlain c := by
  fun_cases isFraction cs
  case case1 rest =>
    simp only [isFraction, Bool.and_eq_true] at h
    rw [← rest.takeWhile_append_dropWhile (p := isDigit)]
    exact List.forall_mem_cons.mpr ⟨by decide, List.forall_mem_append.mpr
      ⟨isPlain_of_areDigits h.1, isPlain_of_isExponent h.2⟩⟩
  case case2 hdot =>
    rw [isFraction.eq_2 _ hdot] at h
    exact isPlain_of_isExponent h

theorem isPlain_of_isMagnitude (h : isMagnitude cs) : ∀ c ∈ cs, isPlain c := by
  fun_cases isMagnitude cs
  case case1 rest => exact List.forall_mem_cons.mpr ⟨by decide, isPlain_of_isFraction h⟩
  case case2 hzero =>
    rw [isMagnitude.eq_2 _ hzero, Bool.and_eq_true] at h
    rw [← cs.takeWhile_append_dropWhile (p := isDigit)]
    exact List.forall_mem_append.mpr ⟨isPlain_of_areDigits h.1, isPlain_of_isFraction h.2⟩

theorem isPlain_of_isNumber (h : isNumber cs) : ∀ c ∈ cs, isPlain c := by
  fun_cases isNumber cs
  case case1 rest => exact List.forall_mem_cons.mpr ⟨by decide, isPlain_of_isMagnitude h⟩
  case case2 hminus =>
    rw [isNumber.eq_2 _ hminus] at h
    exact isPlain_of_isMagnitude h

theorem ofWord?_of_isNumber (h : isNumber cs) : ofWord? cs = some (.scalar (.number cs)) := by
  have hne {word : String} (hword : isNumber word.toList = false) : cs ≠ word.toList := by
    rintro rfl
    simp [hword] at h
  rw [ofWord?, if_neg (hne (by decide)), if_neg (hne (by decide)), if_neg (hne (by decide)),
    if_pos h]

end

def Ends (rest : List Char) : Prop :=
  ∀ c, rest.head? = some c → isPlain c = false

section

variable {c : Char} {rest : List Char} {token : Token}

theorem scan_space (hc : isSpace c) : scan .between (c :: rest) = scan .between rest := by
  simp [scan, hc]

theorem scan_spaces {gap : List Char} (h : ∀ c ∈ gap, isSpace c) :
    scan .between (gap ++ rest) = scan .between rest := by
  induction gap with
  | nil => rfl
  | cons c gap ih =>
    have ⟨hc, hgap⟩ := List.forall_mem_cons.mp h
    rw [List.cons_append, scan_space hc, ih hgap]

theorem scan_punctuation (hc : punctuation? c = some token) :
    scan .between (c :: rest) = (scan .between rest).map (token :: ·) := by
  have hspace : isSpace c = false := by
    refine Bool.eq_false_iff.mpr fun h => ?_
    simp only [isSpace, Bool.or_eq_true, beq_iff_eq] at h
    rcases h with ((rfl | rfl) | rfl) | rfl <;> cases hc
  have hquote : c ≠ '"' := by
    rintro rfl
    cases hc
  simp [scan, hspace, hquote, hc, bind_some_eq_map]

theorem ne_of_unit? {a b c d : Char} (h : (unit? a b c d).isSome) :
    ∀ e ∈ [a, b, c, d], e ≠ '"' ∧ e ≠ '\\' := by
  have hdigit {e : Char} (n : Nat) (he : Numeral.digitValue? e = some n) :
      e ≠ '"' ∧ e ≠ '\\' := by
    constructor <;> (rintro rfl; cases he)
  obtain ⟨n, h⟩ := Option.isSome_iff_exists.mp h
  simp only [unit?, bind, Option.bind_eq_some_iff] at h
  obtain ⟨na, ha, nb, hb, nc, hc, nd, hd, _⟩ := h
  simp [hdigit na ha, hdigit nb hb, hdigit nc hc, hdigit nd hd]

theorem scan_body {body : List Char} (h : Body body) (read rest : List Char) :
    scan (.string read false) (body ++ '"' :: rest) =
      (ofBody? (read.reverse ++ body)).bind fun token => (scan .between rest).map (token :: ·) := by
  induction h generalizing read with
  | nil => simp [scan, bind_some_eq_map]
  | plain hquote hslash _ _ ih => simp [scan, hquote, hslash, ih]
  | simple _ _ ih => simp [scan, ih]
  | unit hunit _ ih =>
    have hne := ne_of_unit? hunit
    simp only [List.forall_mem_cons] at hne
    simp [scan, hne, ih]

theorem scan_quoted {body : List Char} (h : Body body) (rest : List Char) :
    scan .between (quoted body ++ rest) = (scan .between rest).map (.string body :: ·) := by
  have hscan :
      scan .between (quoted body ++ rest) = scan (.string [] false) (body ++ '"' :: rest) := by
    simp [quoted, scan, isSpace]
  rw [hscan, scan_body h]
  simp [ofBody?, h.isBody]

theorem scan_ends (h : Ends rest) (read : List Char) :
    scan (.word read) rest =
      (ofWord? read.reverse).bind fun token => (scan .between rest).map (token :: ·) := by
  cases rest with
  | nil => simp [scan, bind_some_eq_map]
  | cons c rest =>
    have hc := h c rfl
    simp only [isPlain, Bool.and_eq_false_iff] at hc
    by_cases hspace : isSpace c
    case pos => simp [scan, hspace, bind_some_eq_map]
    by_cases hquote : c = '"'
    case pos =>
      subst hquote
      simp [scan, hspace, bind_some_eq_map]
    cases hmark : punctuation? c with
    | none => simp [hspace, hquote, hmark] at hc
    | some mark =>
      rw [scan_punctuation hmark]
      simp [scan, hspace, hquote, hmark, bind_some_eq_map, Function.comp_def]

theorem scan_word {word : List Char} (hne : word ≠ []) (hword : word.all isPlain)
    (h : Ends rest) : scan .between (word ++ rest) =
      (ofWord? word).bind fun token => (scan .between rest).map (token :: ·) := by
  have hplain {c : Char} (hc : isPlain c) :
      isSpace c = false ∧ c ≠ '"' ∧ punctuation? c = none := by
    simpa [isPlain, and_assoc] using hc
  have hread : ∀ read cs : List Char, (∀ c ∈ cs, isPlain c) →
      scan (.word read) (cs ++ rest) = scan (.word (cs.reverse ++ read)) rest := by
    intro read cs hcs
    induction cs generalizing read with
    | nil => rfl
    | cons c cs ih =>
      have ⟨hc, hcs⟩ := List.forall_mem_cons.mp hcs
      have ⟨hspace, hquote, hmark⟩ := hplain hc
      simp [scan, hspace, hquote, hmark, ih _ hcs]
  cases word with
  | nil => exact absurd rfl hne
  | cons c word =>
    have ⟨hc, hword⟩ := List.forall_mem_cons.mp (List.all_eq_true.mp hword)
    have ⟨hspace, hquote, hmark⟩ := hplain hc
    have hstart : scan .between (c :: (word ++ rest)) = scan (.word [c]) (word ++ rest) := by
      simp [scan, hspace, hquote, hmark]
    rw [List.cons_append, hstart, hread _ _ hword, scan_ends h]
    simp

end

end Token

open Token

-- A document of which every string and number is written as the grammar has it.
inductive Sound : Json → Prop
  | null : Sound .null
  | bool (b) : Sound (.bool b)
  | number {literal} (h : isNumber literal) : Sound (.number literal)
  | string {body} (h : Body body) : Sound (.string body)
  | array {items} (hitems : ∀ item ∈ items, Sound item) : Sound (.array items)
  | object {members} (hkeys : ∀ m ∈ members, Body m.1) (hvalues : ∀ m ∈ members, Sound m.2) :
      Sound (.object members)

mutual

def tokens : Json → List Token
  | .string body => [.string body]
  | .array [] => [.openBracket, .closeBracket]
  | .array (item :: items) => .openBracket :: tokens item ++ itemTokens items ++ [.closeBracket]
  | .object [] => [.openBrace, .closeBrace]
  | .object ((key, value) :: members) =>
    .openBrace :: .string key :: .colon :: tokens value ++ memberTokens members ++ [.closeBrace]
  | value => [.scalar value]

def itemTokens : List Json → List Token
  | [] => []
  | item :: items => .comma :: tokens item ++ itemTokens items

def memberTokens : List (List Char × Json) → List Token
  | [] => []
  | (key, value) :: members =>
    .comma :: .string key :: .colon :: tokens value ++ memberTokens members

end

section

variable {indent : Option Nat} {rest : List Char}

theorem isSpace_of_mem_lineBreak {c : Char} (h : c ∈ lineBreak indent) : isSpace c := by
  cases indent with
  | none => cases h
  | some depth =>
    rcases List.mem_cons.mp h with rfl | h
    · rfl
    · exact List.eq_of_mem_replicate h ▸ rfl

@[simp]
theorem scan_lineBreak : scan .between (lineBreak indent ++ rest) = scan .between rest :=
  scan_spaces fun _ hc => isSpace_of_mem_lineBreak hc

@[simp]
theorem scan_colon :
    scan .between (colon indent ++ rest) = (scan .between rest).map (.colon :: ·) := by
  cases indent with
  | none => exact scan_punctuation rfl
  | some => exact (scan_punctuation rfl).trans (congrArg _ (scan_space rfl))

theorem ends_cons {c : Char} (h : isPlain c = false) : Ends (c :: rest) :=
  fun _ hc => Option.some.inj hc ▸ h

theorem ends_lineBreak_append (h : Ends rest) : Ends (lineBreak indent ++ rest) := by
  cases indent with
  | none => exact h
  | some => exact ends_cons (by decide)

theorem ends_writeItems_append (h : Ends rest) (items : List Json) :
    Ends (writeItems indent items ++ rest) := by
  cases items with
  | nil => exact h
  | cons => exact ends_cons (by decide)

theorem ends_writeMembers_append (h : Ends rest) (members : List (List Char × Json)) :
    Ends (writeMembers indent members ++ rest) := by
  cases members with
  | nil => exact h
  | cons => exact ends_cons (by decide)

-- Where its words end, what is written has the tokens of the document.
def Scans (value : Json) : Prop :=
  ∀ indent rest, Ends rest →
    scan .between (write indent value ++ rest) = (scan .between rest).map (tokens value ++ ·)

theorem scan_writeItems {items : List Json} (h : ∀ item ∈ items, Scans item) (hrest : Ends rest) :
    scan .between (writeItems indent items ++ rest) =
      (scan .between rest).map (itemTokens items ++ ·) := by
  induction items with
  | nil => simp [writeItems, itemTokens]
  | cons item items ih =>
    have ⟨hitem, hitems⟩ := List.forall_mem_cons.mp h
    have hcomma (cs : List Char) :
        scan .between (',' :: cs) = (scan .between cs).map (.comma :: ·) :=
      scan_punctuation rfl
    simp [writeItems, itemTokens, hcomma, hitem _ _ (ends_writeItems_append hrest items),
      ih hitems, Function.comp_def]

theorem scan_writeMembers {members : List (List Char × Json)} (hkeys : ∀ m ∈ members, Body m.1)
    (hvalues : ∀ m ∈ members, Scans m.2) (hrest : Ends rest) :
    scan .between (writeMembers indent members ++ rest) =
      (scan .between rest).map (memberTokens members ++ ·) := by
  induction members with
  | nil => simp [writeMembers, memberTokens]
  | cons m members ih =>
    have ⟨hkey, hkeys⟩ := List.forall_mem_cons.mp hkeys
    have ⟨hvalue, hvalues⟩ := List.forall_mem_cons.mp hvalues
    have hcomma (cs : List Char) :
        scan .between (',' :: cs) = (scan .between cs).map (.comma :: ·) :=
      scan_punctuation rfl
    simp [writeMembers, memberTokens, hcomma, scan_quoted hkey,
      hvalue _ _ (ends_writeMembers_append hrest members), ih hkeys hvalues, Function.comp_def]

theorem scans_of_sound {value : Json} (h : Sound value) : Scans value := by
  induction h with
  | null =>
    intro indent rest hrest
    rw [write]
    exact scan_word (by decide) (by decide) hrest
  | bool b =>
    intro indent rest hrest
    cases b <;> (rw [write]; exact scan_word (by decide) (by decide) hrest)
  | @number literal h =>
    intro indent rest hrest
    have hne : literal ≠ [] := by
      rintro rfl
      cases h
    rw [write, scan_word hne (List.all_eq_true.mpr (isPlain_of_isNumber h)) hrest,
      ofWord?_of_isNumber h]
    rfl
  | string h => exact fun _ rest _ => scan_quoted h rest
  | @array items _ ih =>
    intro indent rest _
    have hopen (cs : List Char) :
        scan .between ('[' :: cs) = (scan .between cs).map (.openBracket :: ·) :=
      scan_punctuation rfl
    have hclose (cs : List Char) :
        scan .between (']' :: cs) = (scan .between cs).map (.closeBracket :: ·) :=
      scan_punctuation rfl
    cases items with
    | nil => simp [write, tokens, hopen, hclose, Function.comp_def]
    | cons item items =>
      have ⟨hitem, hitems⟩ := List.forall_mem_cons.mp ih
      have hends : Ends (lineBreak indent ++ ']' :: rest) :=
        ends_lineBreak_append (ends_cons (by decide))
      simp [write, tokens, hopen, hclose, hitem _ _ (ends_writeItems_append hends items),
        scan_writeItems hitems hends, Function.comp_def]
  | @object members hkeys _ ih =>
    intro indent rest _
    have hopen (cs : List Char) :
        scan .between ('\x7b' :: cs) = (scan .between cs).map (.openBrace :: ·) :=
      scan_punctuation rfl
    have hclose (cs : List Char) :
        scan .between ('\x7d' :: cs) = (scan .between cs).map (.closeBrace :: ·) :=
      scan_punctuation rfl
    cases members with
    | nil => simp [write, tokens, hopen, hclose, Function.comp_def]
    | cons m members =>
      have ⟨hkey, hkeys⟩ := List.forall_mem_cons.mp hkeys
      have ⟨hvalue, hvalues⟩ := List.forall_mem_cons.mp ih
      have hends : Ends (lineBreak indent ++ '\x7d' :: rest) :=
        ends_lineBreak_append (ends_cons (by decide))
      simp [write, tokens, hopen, hclose, scan_quoted hkey,
        hvalue _ _ (ends_writeMembers_append hends members),
        scan_writeMembers hkeys hvalues hends, Function.comp_def]

end

theorem exists_tokens_cons (value : Json) :
    ∃ token rest, tokens value = token :: rest ∧ token ≠ .closeBracket := by
  fun_cases tokens value <;> exact ⟨_, _, rfl, by simp⟩

def ReadsBack (value : Json) : Prop :=
  ∀ calls rest, 2 * (tokens value).length ≤ calls →
    readValue calls (tokens value ++ rest) = some (value, rest)

theorem readItems_tokens {item : Json} {items : List Json} (hitem : ReadsBack item)
    (hitems : ∀ item ∈ items, ReadsBack item) (calls : Nat) (rest : List Token)
    (hcalls : 2 * ((tokens item).length + (itemTokens items).length + 1) ≤ calls) :
    readItems calls (tokens item ++ (itemTokens items ++ .closeBracket :: rest)) =
      some (item :: items, rest) := by
  induction items generalizing item calls with
  | nil =>
    cases calls with
    | zero => omega
    | succ calls => simp [readItems, itemTokens, hitem calls _ (by omega)]
  | cons next items ih =>
    have ⟨hnext, hitems⟩ := List.forall_mem_cons.mp hitems
    simp only [itemTokens, List.length_cons, List.length_append, List.cons_append] at hcalls
    cases calls with
    | zero => omega
    | succ calls =>
      simp [readItems, itemTokens, hitem calls _ (by omega), ih hnext hitems calls (by omega)]

theorem readMembers_tokens (key : List Char) {value : Json} {members : List (List Char × Json)}
    (hvalue : ReadsBack value) (hvalues : ∀ m ∈ members, ReadsBack m.2) (calls : Nat)
    (rest : List Token)
    (hcalls : 2 * ((tokens value).length + (memberTokens members).length + 1) ≤ calls) :
    readMembers calls
        (.string key :: .colon :: (tokens value ++ (memberTokens members ++ .closeBrace :: rest))) =
      some ((key, value) :: members, rest) := by
  induction members generalizing key value calls with
  | nil =>
    cases calls with
    | zero => omega
    | succ calls => simp [readMembers, memberTokens, hvalue calls _ (by omega)]
  | cons next members ih =>
    have ⟨hnext, hvalues⟩ := List.forall_mem_cons.mp hvalues
    simp only [memberTokens, List.length_cons, List.length_append, List.cons_append] at hcalls
    cases calls with
    | zero => omega
    | succ calls =>
      simp [readMembers, memberTokens, hvalue calls _ (by omega),
        ih next.1 hnext hvalues calls (by omega)]

theorem readsBack_of_sound {value : Json} (h : Sound value) : ReadsBack value := by
  induction h with
  | null | bool | number | string =>
    intro calls rest hcalls
    cases calls with
    | zero => simp [tokens] at hcalls
    | succ calls => simp [readValue, tokens]
  | @array items _ ih =>
    intro calls rest hcalls
    cases calls with
    | zero => cases items <;> simp [tokens] at hcalls
    | succ calls =>
      cases items with
      | nil => simp [readValue, tokens]
      | cons item items =>
        have ⟨hitem, hitems⟩ := List.forall_mem_cons.mp ih
        simp only [tokens, List.length_cons, List.length_append, List.length_nil] at hcalls
        have hread := readItems_tokens hitem hitems calls rest (by omega)
        obtain ⟨token, front, hfront, hne⟩ := exists_tokens_cons item
        simp only [hfront, List.cons_append] at hread
        simp [readValue, tokens, hfront, hne, hread]
  | @object members _ _ ih =>
    intro calls rest hcalls
    cases calls with
    | zero => cases members <;> simp [tokens] at hcalls
    | succ calls =>
      cases members with
      | nil => simp [readValue, tokens]
      | cons m members =>
        have ⟨hvalue, hvalues⟩ := List.forall_mem_cons.mp ih
        simp only [tokens, List.length_cons, List.length_append, List.length_nil] at hcalls
        have hread := readMembers_tokens m.1 hvalue hvalues calls rest (by omega)
        simp [readValue, tokens, hread]

theorem parse?_write {value : Json} (h : Sound value) (indent : Option Nat) :
    parse? (write indent value) = some value := by
  have hscan := scans_of_sound h indent [] (fun _ hc => nomatch hc)
  have hread := readsBack_of_sound h (2 * (tokens value).length + 1) [] (Nat.le_succ _)
  simp only [List.append_nil] at hscan hread
  simp [parse?, hscan, scan, hread]

end Json

end Splice
