import Mathlib.Data.List.TakeWhile
import Splice.Proofs.Hex
import Splice.Proofs.Lines

namespace Splice

namespace Numeral

theorem read_hexDigits (b : UInt8) : read 16 256 (hexDigits b) = .ok b.toNat := by
  have all : ∀ n < 256, read 16 256 [Nat.digitChar (n / 16), Nat.digitChar (n % 16)] = .ok n := by
    decide +kernel
  exact all b.toNat b.toNat_lt

end Numeral

namespace Text

structure IsToken (token : List Char) : Prop where
  ne_nil  : token ≠ []
  visible : ∀ c ∈ token, isBlank c = false ∧ c ≠ '#'

-- Tokens with blanks between them, as many as one likes but at least one, and with blanks in front
-- and behind if one likes.
inductive Spaced : List (List Char) → List Char → Prop
  | blank {gap} (hgap : ∀ c ∈ gap, isBlank c) : Spaced [] gap
  | token (gap) {token rest tokens} (hgap : ∀ c ∈ gap, isBlank c)
      (ends : ∀ c, rest.head? = some c → isBlank c) (hrest : Spaced tokens rest) :
    Spaced (token :: tokens) (gap ++ token ++ rest)

theorem Spaced.words_eq {tokens : List (List Char)} {cs : List Char} (h : Spaced tokens cs)
    (ht : ∀ token ∈ tokens, IsToken token) : words cs = tokens := by
  induction h with
  | @blank gap hgap =>
    rw [← List.append_nil gap, words_append hgap]
    rfl
  | @token gap token rest tokens hgap ends _ ih =>
    obtain ⟨htoken, ht⟩ := List.forall_mem_cons.mp ht
    have hwords : words token = [token] :=
      words_of_forall_not htoken.ne_nil fun c hc => (htoken.visible c hc).1
    rw [List.append_assoc, words_append hgap]
    cases rest with
    | nil =>
      rw [List.append_nil, hwords, ← ih ht]
      rfl
    | cons c rest =>
      have hc := ends c rfl
      rw [words_append_cons hc, hwords, ← words_cons hc, ih ht, List.singleton_append]

theorem Spaced.ne_numberSign {tokens : List (List Char)} {cs : List Char} (h : Spaced tokens cs)
    (ht : ∀ token ∈ tokens, IsToken token) : ∀ c ∈ cs, c ≠ '#' := by
  have hblank {gap : List Char} (hgap : ∀ c ∈ gap, isBlank c) : ∀ c ∈ gap, c ≠ '#' := by
    rintro _ hc rfl
    exact absurd (hgap _ hc) (by decide)
  induction h with
  | blank hgap => exact hblank hgap
  | token _ hgap _ _ ih =>
    obtain ⟨htoken, ht⟩ := List.forall_mem_cons.mp ht
    exact List.forall_mem_append.mpr ⟨List.forall_mem_append.mpr
      ⟨hblank hgap, fun c hc => (htoken.visible c hc).2⟩, ih ht⟩

theorem Spaced.cons {tokens : List (List Char)} {cs : List Char} (h : Spaced tokens cs) {c : Char}
    (hc : isBlank c) : Spaced tokens (c :: cs) := by
  cases h with
  | blank hgap => exact .blank (List.forall_mem_cons.mpr ⟨hc, hgap⟩)
  | token _ hgap ends hrest => exact .token _ (List.forall_mem_cons.mpr ⟨hc, hgap⟩) ends hrest

theorem spaced_words (cs : List Char) : Spaced (words cs) cs := by
  suffices h : ∃ piece pieces rest, split isBlank cs = piece :: pieces ∧ piece ++ rest = cs ∧
      (∀ c, rest.head? = some c → isBlank c) ∧ Spaced (pieces.filter (!·.isEmpty)) rest by
    obtain ⟨piece, pieces, rest, hsplit, rfl, ends, hrest⟩ := h
    rw [words, hsplit]
    cases piece with
    | nil => exact hrest
    | cons c piece => exact .token [] (by simp) ends hrest
  induction cs with
  | nil => exact ⟨[], [], [], rfl, rfl, by simp, .blank (by simp)⟩
  | cons c cs ih =>
    obtain ⟨piece, pieces, rest, hsplit, rfl, ends, hrest⟩ := ih
    by_cases hc : isBlank c
    case pos =>
      refine ⟨[], piece :: pieces, c :: (piece ++ rest), by simp [split, hc, hsplit], rfl,
        by simpa using hc, ?_⟩
      cases piece with
      | nil => exact hrest.cons hc
      | cons d piece => exact .token [c] (by simpa using hc) ends hrest
    case neg => exact ⟨c :: piece, pieces, rest, by simp [split, hc, hsplit], rfl, ends, hrest⟩

end Text

namespace Instruction

theorem Fits.whole {ins : Instruction} {last : Bool} (h : ins.Fits last)
    (hw : ins.isTruncated = false) : ins.Fits false := by
  simp only [isTruncated, ne_eq, decide_not, Bool.not_eq_false', decide_eq_true_eq] at hw
  simp only [Fits] at *
  split at h
  case h_1 => exact h
  case h_2 imm himm =>
    rw [himm, Option.getD_some] at hw
    exact ⟨h.1, h.2.1, fun hlt => absurd hw (Nat.ne_of_lt hlt)⟩

end Instruction

namespace Program

theorem listed_decodeFrom {pc : Nat} {code : List UInt8}
    (h : ∀ ins ∈ decodeFrom pc code, ins.isTruncated = false) : Listed pc (decodeFrom pc code) := by
  induction pc, code using decodeFrom_induction with
  | nil pc => exact decodeFrom_nil pc ▸ .nil
  | cons pc b rest ih =>
    rw [decodeFrom_eq_read_cons] at h ⊢
    have ⟨hread, hrest⟩ := List.forall_mem_cons.mp h
    have hfits := (fits_read pc (read pc b rest).next b rest).whole hread
    have hnext : (read pc b rest).next = pc + (read pc b rest).size := by
      rw [Instruction.next, Instruction.size, hfits.length_eq, Nat.add_assoc]
      rfl
    exact Listed.cons_iff.mpr ⟨rfl, ⟨b, rfl⟩, hfits, hnext ▸ ih hrest⟩

end Program

namespace Assembly

open Opcode Program Instruction Text

theorem byteDigits?_of_isName {token : List Char} (h : IsName token) :
    byteDigits? token = none := by
  cases hrest : after? "UNKNOWN(0x".toList token with
  | none => rw [byteDigits?, hrest]
  | some rest =>
    rw [after?_eq_some_iff] at hrest
    have hopen : isSign '(' := h.signs '(' (hrest ▸ by simp)
    exact absurd hopen (by decide)

theorem byteDigits?_name_unknown (b : UInt8) :
    byteDigits? (unknown b).name.toList = some (Numeral.hexDigits b) := by
  have hrest := after?_eq_some_iff.mpr (toList_name_unknown b)
  rw [byteDigits?, hrest]
  simp

theorem readOpcode_name (b : UInt8) : readOpcode (ofByte b).name.toList = .ok (ofByte b) := by
  rcases mem_mnemonics_or_eq_unknown b with h | h
  case inl =>
    rw [readOpcode, byteDigits?_of_isName (isName_of_mem h), ofMnemonic_name h]
    rfl
  case inr =>
    rw [h, readOpcode, byteDigits?_name_unknown, ← h]
    simp [Numeral.read_hexDigits]

theorem readImmediate_encode {bytes : List UInt8} {width : Nat} (h : bytes.length = width) :
    readImmediate (Hex.encode bytes).toList width = .ok bytes := by
  subst h
  rw [readImmediate, Hex.toList_encode]
  simp [after?, Hex.utf8ByteSize_digits, Hex.decode_digits]

-- A line with tokens in it, and with a comment behind them if one likes.
inductive Line : List (List Char) → List Char → Prop
  | plain {tokens line} (h : Spaced tokens line) : Line tokens line
  | commented {tokens front comment} (h : Spaced tokens front) :
    Line tokens (front ++ '#' :: comment)

theorem Line.tokens_eq {ts : List (List Char)} {line : List Char} (h : Line ts line)
    (ht : ∀ token ∈ ts, IsToken token) : tokens line = ts := by
  rw [tokens]
  cases h with
  | plain h =>
    rw [List.takeWhile_eq_self_iff.mpr (by simpa using h.ne_numberSign ht), h.words_eq ht]
  | commented h =>
    rw [List.takeWhile_append_of_pos (by simpa using h.ne_numberSign ht),
      List.takeWhile_cons_of_neg (by simp), List.append_nil, h.words_eq ht]

theorem line_of_tokens {ts : List (List Char)} {line : List Char} (h : tokens line = ts) :
    Line ts line := by
  have hline := line.takeWhile_append_dropWhile (p := (· ≠ '#'))
  have hmark := List.head?_dropWhile_not (· ≠ '#') line
  rw [← h, tokens]
  generalize line.takeWhile (· ≠ '#') = front at hline ⊢
  cases hrest : line.dropWhile (· ≠ '#') with
  | nil =>
    rw [hrest, List.append_nil] at hline
    exact hline ▸ .plain (spaced_words front)
  | cons c comment =>
    rw [hrest] at hline hmark
    obtain rfl : c = '#' := by simpa using hmark
    exact hline ▸ .commented (spaced_words front)

def spell (ins : Instruction) : List (List Char) :=
  ins.op.name.toList :: (ins.imm.map (Hex.encode · |>.toList)).toList

-- A text that a listing can be written as. Every line has some of the instructions, or none, and a
-- carriage return in front of a line feed is one of the blanks, or a part of the comment.
inductive Page : List Instruction → List Char → Prop
  | last {l line} (hline : Line (l.flatMap spell) line) (hfeed : '\n' ∉ line) : Page l line
  | line {l l' line text} (hline : Line (l.flatMap spell) line) (hfeed : '\n' ∉ line)
      (hrest : Page l' text) : Page (l ++ l') (line ++ '\n' :: text)

theorem visible_of_isSign {c : Char} (h : isSign c) : isBlank c = false ∧ c ≠ '#' := by
  constructor
  case left =>
    simp only [isSign, Bool.or_eq_true, Bool.and_eq_true, decide_eq_true_eq] at h
    simp [isBlank]
    omega
  case right =>
    rintro rfl
    exact absurd h (by decide)

theorem visible_digitChar :
    ∀ n < 16, isBlank (Nat.digitChar n) = false ∧ Nat.digitChar n ≠ '#' := by
  decide

theorem isToken_name (b : UInt8) : IsToken (ofByte b).name.toList := by
  rcases mem_mnemonics_or_eq_unknown b with h | h
  case inl =>
    have hname := isName_of_mem h
    exact ⟨hname.ne_nil, fun c hc => visible_of_isSign (hname.signs c hc)⟩
  case inr =>
    rw [h, toList_name_unknown]
    refine ⟨by simp, List.forall_mem_append.mpr ⟨by simp [isBlank], ?_⟩⟩
    refine List.forall_mem_append.mpr ⟨fun c hc => ?_, by simp [isBlank]⟩
    have ⟨n, hn, hc⟩ := Numeral.exists_of_mem_hexDigits hc
    exact hc ▸ visible_digitChar n hn

theorem isToken_encode (bytes : List UInt8) : IsToken (Hex.encode bytes).toList := by
  have hdigits : ∀ c ∈ Hex.digits bytes, isBlank c = false ∧ c ≠ '#' := by
    intro c hc
    have ⟨n, hn, hc⟩ := Hex.exists_of_mem_digits hc
    exact hc ▸ visible_digitChar n hn
  rw [Hex.toList_encode]
  refine ⟨List.cons_ne_nil _ _, List.forall_mem_cons.mpr ⟨by decide, ?_⟩⟩
  exact List.forall_mem_cons.mpr ⟨by decide, hdigits⟩

theorem isToken_of_mem_spell {ins : Instruction} (hop : ∃ b, ins.op = .ofByte b)
    {token : List Char} (h : token ∈ spell ins) : IsToken token := by
  have ⟨b, hb⟩ := hop
  rcases List.mem_cons.mp h with rfl | h
  case inl => exact hb ▸ isToken_name b
  case inr =>
    have ⟨imm, _, himm⟩ := Option.map_eq_some_iff.mp (Option.mem_toList.mp h)
    exact himm ▸ isToken_encode imm

theorem reads_spell {pc : Nat} {l : List Instruction} (h : Listed pc l) :
    Reads pc (l.flatMap spell) l := by
  induction l generalizing pc with
  | nil => exact .nil
  | cons ins l ih =>
    obtain ⟨rfl, ⟨b, hop⟩, hfits, hl⟩ := Listed.cons_iff.mp h
    have hl := ih hl
    have hopcode := readOpcode_name b
    rw [← hop] at hopcode
    obtain ⟨pc, op, _ | imm⟩ := ins
    case none => exact .plain hopcode hfits hl
    case some =>
      have hlength : imm.length = op.width := hfits.length_eq
      rw [Instruction.size, Option.getD_some, hlength, ← Nat.add_assoc] at hl
      exact .push hopcode hfits.1 (readImmediate_encode hlength) hl

theorem readTokens_of_line {pc : Nat} {l : List Instruction} {line : List Char}
    (hline : Line (l.flatMap spell) line) (hl : Listed pc l) :
    readTokens pc (tokens line) = .ok l := by
  have htokens : ∀ token ∈ l.flatMap spell, IsToken token := by
    intro token htoken
    have ⟨ins, hins, htoken⟩ := List.mem_flatMap.mp htoken
    exact isToken_of_mem_spell (hl.coded ins hins) htoken
  rw [hline.tokens_eq htokens]
  exact (reads_spell hl).readTokens

theorem readLines_of_page {l : List Instruction} {text : List Char} (h : Page l text)
    {number pc : Nat} (hl : Listed pc l) :
    readLines number pc (split (· == '\n') text) = .ok l := by
  have hsplit {line : List Char} (hfeed : '\n' ∉ line) : split (· == '\n') line = [line] :=
    split_of_forall_not fun c hc => beq_eq_false_iff_ne.mpr fun heq => hfeed (heq ▸ hc)
  induction h generalizing number pc with
  | @last l line hline hfeed =>
    rw [hsplit hfeed, readLines_cons_eq_ok]
    exact ⟨l, [], readTokens_of_line hline hl, rfl, List.append_nil l⟩
  | @line l l' line text hline hfeed _ ih =>
    have ⟨hl, hl'⟩ := Listed.append_iff.mp hl
    rw [split_append_cons rfl, hsplit hfeed, List.singleton_append, readLines_cons_eq_ok]
    exact ⟨l, l', readTokens_of_line hline hl, ih hl', rfl⟩

-- A code in which no immediate is cut off is got back from any text of its disassembly.
theorem reassembles_disassembly {code : List UInt8} {text : List Char} (hw : (decode code).Whole)
    (htext : Page (decode code).instructions text) :
    parse text = .ok (decode code).instructions ∧ assemble text = .ok code := by
  have hparse : parse text = .ok (decode code).instructions := by
    rw [parse_eq]
    exact readLines_of_page htext (listed_decodeFrom hw)
  refine ⟨hparse, ?_⟩
  rw [assemble_of_parse hparse]
  exact congrArg Except.ok (flatMap_bytes_decodeFrom 0 code)

def scattered : List UInt8 := [0x0c, 0x61, 0x01, 0x02, 0x8f, 0xd0, 0x5f]

def scatteredText : List Char :=
  "\tUNKNOWN(0x0c)# PUSH1\r".toList ++ '\n' :: ("".toList ++ '\n' ::
    ("PUSH2 \u2003 0x0102 DUP16".toList ++ '\n' :: "DATALOAD\tPUSH0 # 0x5f".toList))

theorem reassembles_disassembly_scattered :
    (decode scattered).Whole ∧ Page (decode scattered).instructions scatteredText ∧
      parse scatteredText = .ok (decode scattered).instructions ∧
      assemble scatteredText = .ok scattered := by
  have hdecode : (decode scattered).instructions = [⟨0, .unknown 0x0c, none⟩] ++ ([] ++
      ([⟨1, .push 2, some [0x01, 0x02]⟩, ⟨4, .dup 16, none⟩] ++
        [⟨5, .dataload, none⟩, ⟨6, .push0, none⟩])) := by
    decide +kernel
  have hw : (decode scattered).Whole := by
    rw [Program.Whole, hdecode]
    decide
  have hpage : Page (decode scattered).instructions scatteredText := by
    rw [hdecode]
    exact .line (line_of_tokens (by decide +kernel)) (by decide +kernel)
      (.line (line_of_tokens (by decide +kernel)) (by decide +kernel)
        (.line (line_of_tokens (by decide +kernel)) (by decide +kernel)
          (.last (line_of_tokens (by decide +kernel)) (by decide +kernel))))
  exact ⟨hw, hpage, reassembles_disassembly hw hpage⟩

end Assembly
end Splice
