import Mathlib.Data.List.Basic
import Splice.Json.Bytes
import Splice.Prelude
import Splice.Proofs.Escape
import Splice.Proofs.Text

namespace Splice

namespace Numeral

theorem exists_of_mem_hexDigits {b : UInt8} {c : Char} (h : c ∈ hexDigits b) :
    ∃ n < 16, Nat.digitChar n = c := by
  have hb := b.toNat_lt
  rcases List.mem_pair.mp h with rfl | rfl
  · exact ⟨b.toNat / 16, by omega, rfl⟩
  · exact ⟨b.toNat % 16, by omega, rfl⟩

theorem digitValue?_eq_none_of_le {c : Char} (h : 128 ≤ c.toNat) : digitValue? c = none := by
  have hnot {d : Char} (hd : d.toNat < 128) : ¬c ≤ d := by
    intro hle
    have hle : c.toNat ≤ d.toNat := UInt32.le_iff_toNat_le.mp hle
    omega
  simp [digitValue?, hnot]

theorem toLower_eq_self_of_le {c : Char} (h : 128 ≤ c.toNat) : c.toLower = c := by
  have hnot : ¬('A'.val ≤ c.val ∧ c.val ≤ 'Z'.val) := by
    rintro ⟨-, hle⟩
    have hle : c.toNat ≤ 0x5a := UInt32.le_iff_toNat_le.mp hle
    omega
  exact dif_neg hnot

theorem digitValue?_eq_some_iff {c : Char} {n : Nat} :
    digitValue? c = some n ↔ n < 16 ∧ c.toLower = Nat.digitChar n := by
  by_cases hc : c.toNat < 128
  case pos =>
    have hvalue : ∀ i < 128, (digitValue? (Char.ofNat i)).all (· < 16) := by decide +kernel
    have hiff : ∀ i < 128, ∀ n < 16, digitValue? (Char.ofNat i) = some n ↔
        (Char.ofNat i).toLower = Nat.digitChar n := by decide +kernel
    have hvalue := hvalue _ hc
    have hiff := hiff _ hc
    rw [Char.ofNat_toNat] at hvalue hiff
    constructor
    · intro h
      have hn : n < 16 := by simpa [h] using hvalue
      exact ⟨hn, (hiff n hn).mp h⟩
    · exact fun ⟨hn, h⟩ => (hiff n hn).mpr h
  case neg =>
    have hc := Nat.not_lt.mp hc
    have hdigit : ∀ n < 16, (Nat.digitChar n).toNat < 128 := by decide
    rw [digitValue?_eq_none_of_le hc, toLower_eq_self_of_le hc]
    constructor
    · exact nofun
    · rintro ⟨hn, rfl⟩
      exact absurd (hdigit n hn) (Nat.not_lt.mpr hc)

theorem isSome_digitValue?_iff {c : Char} :
    (digitValue? c).isSome ↔ ∃ n < 16, c.toLower = Nat.digitChar n := by
  simp only [Option.isSome_iff_exists, digitValue?_eq_some_iff]

theorem map_toLower_eq_hexDigits_iff {c d : Char} {b : UInt8} :
    [c, d].map Char.toLower = hexDigits b ↔
      digitValue? c = some (b.toNat / 16) ∧ digitValue? d = some (b.toNat % 16) := by
  have hb := b.toNat_lt
  have high : b.toNat / 16 < 16 := by omega
  have low : b.toNat % 16 < 16 := by omega
  simp [digitValue?_eq_some_iff, hexDigits, high, low]

end Numeral

namespace Hex

open Numeral Text

theorem exists_of_mem_digits {bytes : List UInt8} {c : Char} (h : c ∈ digits bytes) :
    ∃ n < 16, Nat.digitChar n = c := by
  have ⟨_, _, hc⟩ := List.mem_flatMap.mp h
  exact exists_of_mem_hexDigits hc

theorem length_digits (bytes : List UInt8) : (digits bytes).length = 2 * bytes.length := by
  simp [digits, hexDigits, List.length_flatMap, Nat.mul_comm]

theorem toList_encode (bytes : List UInt8) :
    (encode bytes).toList = '0' :: 'x' :: digits bytes := by
  simp [encode]

def strip (text : List Char) : List Char :=
  text.filter fun c => !isBlank c && c != '_'

-- The characters of a text, but for blanks and underscores, are the digits of some bytes in either
-- case.
def Spells (text : List Char) (bytes : List UInt8) : Prop :=
  (strip text).map Char.toLower = digits bytes

theorem map_toLower_eq_digits_iff {c d : Char} {cs : List Char} {bytes : List UInt8} :
    (c :: d :: cs).map Char.toLower = digits bytes ↔
      ∃ b rest, bytes = b :: rest ∧ digitValue? c = some (b.toNat / 16) ∧
        digitValue? d = some (b.toNat % 16) ∧ cs.map Char.toLower = digits rest := by
  cases bytes with
  | nil => simp [digits]
  | cons b rest =>
    have hpair := map_toLower_eq_hexDigits_iff (c := c) (d := d) (b := b)
    simp only [List.map_cons, List.map_nil, hexDigits, List.cons.injEq, and_true] at hpair
    simp [digits, hexDigits, ← and_assoc, ← hpair]

theorem eq_ofNat_of_digits {high low : Nat} (hhigh : high < 16) (hlow : low < 16) {b : UInt8} :
    high = b.toNat / 16 ∧ low = b.toNat % 16 ↔ .ofNat (high * 16 + low) = b := by
  have hb := b.toNat_lt
  rw [← UInt8.toNat_inj, UInt8.toNat_ofNat']
  omega

theorem decodePairs_eq_ok_iff {index : Nat} {cs : List Char} {bytes : List UInt8}
    (heven : cs.length % 2 = 0) :
    decodePairs index cs = .ok bytes ↔ cs.map Char.toLower = digits bytes := by
  fun_induction decodePairs index cs generalizing bytes with
  | case1 _ _ _ _ hhigh =>
    rw [map_toLower_eq_digits_iff]
    simp [hhigh]
  | case2 _ _ _ _ hlow =>
    rw [map_toLower_eq_digits_iff]
    simp [hlow]
  | case3 index _ _ rest low high hlow hhigh ih =>
    have hsum {b : UInt8} := eq_ofNat_of_digits (digitValue?_eq_some_iff.mp hhigh).1
      (digitValue?_eq_some_iff.mp hlow).1 (b := b)
    simp only [List.length_cons, Nat.add_assoc, Nat.add_mod_right] at heven
    rw [map_toLower_eq_digits_iff]
    simp only [hhigh, hlow, ← ih heven, Option.some.injEq]
    constructor
    case mp =>
      intro h
      cases hrest : decodePairs (index + 2) rest with
      | error => simp [hrest, bind, Except.bind] at h
      | ok rest =>
        simp only [hrest, bind, Except.bind, pure, Except.pure, Except.ok.injEq] at h
        have ⟨hh, hl⟩ := hsum.mpr rfl
        exact ⟨_, rest, h.symm, hh, hl, rfl⟩
    case mpr =>
      rintro ⟨b, bytes, rfl, hh, hl, hrest⟩
      simp only [hrest, hsum.mp ⟨hh, hl⟩, bind, Except.bind, pure, Except.pure]
  | case4 cs index hshort =>
    cases cs with
    | nil => cases bytes <;> simp [digits, hexDigits]
    | cons c cs =>
      cases cs with
      | nil => simp at heven
      | cons d cs => exact absurd rfl (hshort c d cs)

theorem toNat_lt_of_isSome {c : Char} (h : (digitValue? c).isSome) : c.toNat < 128 := by
  refine Nat.lt_of_not_le fun hle => ?_
  rw [digitValue?_eq_none_of_le hle] at h
  cases h

theorem utf8EncodeChar_of_isSome {c : Char} (h : (digitValue? c).isSome) :
    String.utf8EncodeChar c = [.ofNat c.toNat] := by
  have all : ∀ i < 128, String.utf8EncodeChar (Char.ofNat i) = [.ofNat (Char.ofNat i).toNat] := by
    decide +kernel
  have hall := all _ (toNat_lt_of_isSome h)
  rwa [Char.ofNat_toNat] at hall

theorem decode_eq_ok_iff {cs : List Char} {bytes : List UInt8}
    (h : ∀ c ∈ cs, (digitValue? c).isSome) :
    decode cs = .ok bytes ↔ cs.map Char.toLower = digits bytes := by
  have hascii : (cs.flatMap fun c =>
      (String.utf8EncodeChar c).map fun b => Char.ofNat b.toNat) = cs := by
    refine (List.flatMap_congr fun c hc => ?_).trans (List.flatMap_singleton' _)
    have hlt : c.toNat < 2 ^ 8 := Nat.lt_trans (toNat_lt_of_isSome (h c hc)) (by decide)
    rw [utf8EncodeChar_of_isSome (h c hc), List.map_singleton, UInt8.toNat_ofNat_of_lt' hlt,
      Char.ofNat_toNat]
  rw [decode, hascii]
  split
  case isTrue hodd =>
    have hlength : cs.map Char.toLower ≠ digits bytes := by
      intro heq
      have hlength := congrArg List.length heq
      rw [List.length_map, length_digits] at hlength
      omega
    simp [hlength]
  case isFalse hodd => exact decodePairs_eq_ok_iff (Nat.mod_two_ne_one.mp hodd)

theorem isSome_of_map_toLower {cs : List Char} {bytes : List UInt8}
    (h : cs.map Char.toLower = digits bytes) : ∀ c ∈ cs, (digitValue? c).isSome := by
  intro c hc
  obtain ⟨n, hn, heq⟩ := exists_of_mem_digits (h ▸ List.mem_map_of_mem hc)
  exact isSome_digitValue?_iff.mpr ⟨n, hn, heq.symm⟩

theorem map_toLower_digits (bytes : List UInt8) :
    (digits bytes).map Char.toLower = digits bytes := by
  refine (List.map_congr_left fun c hc => ?_).trans (List.map_id _)
  obtain ⟨n, hn, rfl⟩ := exists_of_mem_digits hc
  exact (digitValue?_eq_some_iff.mp (digitValue?_digitChar hn)).2

theorem isSome_of_mem_digits {bytes : List UInt8} {c : Char} (h : c ∈ digits bytes) :
    (digitValue? c).isSome :=
  isSome_of_map_toLower (map_toLower_digits bytes) c h

theorem decode_digits (bytes : List UInt8) : decode (digits bytes) = .ok bytes :=
  (decode_eq_ok_iff fun _ => isSome_of_mem_digits).mpr (map_toLower_digits bytes)

theorem utf8ByteSize_digits (bytes : List UInt8) :
    (String.ofList (digits bytes)).utf8ByteSize = 2 * bytes.length := by
  have hbytes := List.flatMap_congr (l := digits bytes) fun c hc =>
    utf8EncodeChar_of_isSome (isSome_of_mem_digits hc)
  rw [String.utf8ByteSize, String.toByteArray_ofList, List.utf8Encode, hbytes]
  simp [length_digits]

def unmarked (cs : List Char) : List Char :=
  ((after? ['0', 'x'] cs).or (after? ['0', 'X'] cs)).getD cs

theorem normalize_eq_ok_iff {text cs : List Char} :
    normalize text = .ok cs ↔
      strip (unmarked (trim text)) = cs ∧ ∀ c ∈ cs, (digitValue? c).isSome := by
  rw [normalize, ← strip, ← unmarked]
  generalize strip (unmarked (trim text)) = cleaned
  split
  case h_1 h =>
    rw [List.dropWhile_eq_nil_iff] at h
    exact ⟨fun heq => Except.ok.inj heq ▸ ⟨rfl, h⟩, fun heq => congrArg Except.ok heq.1⟩
  case h_2 c rest h =>
    refine ⟨nofun, fun ⟨heq, hcs⟩ => ?_⟩
    rw [heq, List.dropWhile_eq_nil_iff.mpr hcs] at h
    cases h

theorem decodeLoose_eq_ok_iff_unmarked {text : List Char} {bytes : List UInt8} :
    decodeLoose text = .ok bytes ↔ Spells (unmarked (trim text)) bytes := by
  rw [decodeLoose, Spells]
  cases h : normalize text with
  | ok cs =>
    obtain ⟨rfl, hcs⟩ := normalize_eq_ok_iff.mp h
    exact decode_eq_ok_iff hcs
  | error fault =>
    refine ⟨nofun, fun hspells => ?_⟩
    rw [normalize_eq_ok_iff.mpr ⟨rfl, isSome_of_map_toLower hspells⟩] at h
    cases h

def marks : List (List Char) :=
  [[], ['0', 'x'], ['0', 'X']]

theorem Spells.isSome {text : List Char} {bytes : List UInt8} (h : Spells text bytes) {c : Char}
    (hc : c ∈ text) : isBlank c ∨ c = '_' ∨ (digitValue? c).isSome := by
  by_cases hstrip : c ∈ strip text
  case pos => exact .inr (.inr (isSome_of_map_toLower h c hstrip))
  case neg =>
    simp only [strip, List.mem_filter, hc, true_and, Bool.and_eq_true, Bool.not_eq_true',
      bne_iff_ne, ne_eq, not_and, Classical.not_not] at hstrip
    by_cases hblank : isBlank c
    · exact .inl hblank
    · exact .inr (.inl (hstrip (Bool.eq_false_iff.mpr hblank)))

theorem unmarked_of_after? {cs body : List Char}
    (h : (after? ['0', 'x'] cs).or (after? ['0', 'X'] cs) = some body) : unmarked cs = body := by
  rw [unmarked, h]
  rfl

theorem mark_append_unmarked (cs : List Char) : ∃ mark ∈ marks, mark ++ unmarked cs = cs := by
  cases h : (after? ['0', 'x'] cs).or (after? ['0', 'X'] cs) with
  | none => exact ⟨[], by simp [marks], by simp [unmarked, h]⟩
  | some body =>
    rw [unmarked_of_after? h]
    rcases Option.or_eq_some_iff.mp h with h | ⟨-, h⟩
    · exact ⟨['0', 'x'], by simp [marks], (after?_eq_some_iff.mp h).symm⟩
    · exact ⟨['0', 'X'], by simp [marks], (after?_eq_some_iff.mp h).symm⟩

theorem Spells.unmarked_append {mark body : List Char} {bytes : List UInt8}
    (h : Spells body bytes) (hmark : mark ∈ marks) : unmarked (mark ++ body) = body := by
  have hnone {x : Char} (hx : ¬(isBlank x ∨ x = '_' ∨ (digitValue? x).isSome)) :
      after? ['0', x] body = none := by
    refine Option.eq_none_iff_forall_ne_some.mpr fun rest hrest => hx (h.isSome ?_)
    simp [after?_eq_some_iff.mp hrest]
  simp only [marks, List.mem_cons, List.not_mem_nil, or_false] at hmark
  rcases hmark with rfl | rfl | rfl
  · simp [unmarked, hnone (x := 'x') (by decide), hnone (x := 'X') (by decide)]
  · exact unmarked_of_after? rfl
  · exact unmarked_of_after? rfl

theorem spells_unmarked_iff {cs : List Char} {bytes : List UInt8} :
    Spells (unmarked cs) bytes ↔
      ∃ mark ∈ marks, ∃ body, cs = mark ++ body ∧ Spells body bytes := by
  constructor
  case mp =>
    intro h
    obtain ⟨mark, hmark, hcs⟩ := mark_append_unmarked cs
    exact ⟨mark, hmark, _, hcs.symm, h⟩
  case mpr =>
    rintro ⟨mark, hmark, body, rfl, h⟩
    rwa [h.unmarked_append hmark]

theorem decodeLoose_eq_ok_iff {text : List Char} {bytes : List UInt8} :
    decodeLoose text = .ok bytes ↔
      ∃ mark ∈ marks, ∃ body, Trimmed text (mark ++ body) ∧ Spells body bytes := by
  simp only [decodeLoose_eq_ok_iff_unmarked, spells_unmarked_iff, trimmed_iff]

theorem bytes?_eq_some_iff {value : Json} {bytes : List UInt8} :
    value.bytes? = some bytes ↔
      ∃ text, value.chars? = some text ∧ decodeLoose text = .ok bytes := by
  have hok {read : Except HexFault (List UInt8)} :
      read.toOption = some bytes ↔ read = .ok bytes := by
    cases read <;> simp [Except.toOption]
  rw [Json.bytes?, Option.bind_eq_some_iff]
  simp only [hok]

section

variable {text body : List Char}

theorem decodeLoose_of_trimmed (h : Trimmed text ('0' :: 'x' :: body)) {bytes : List UInt8} :
    decodeLoose (trim text) = .ok bytes ↔ Spells body bytes := by
  rw [decodeLoose_eq_ok_iff_unmarked, trim_trim, h.trim_eq]
  rfl

theorem decodeMarked_of_trimmed (h : Trimmed text ('0' :: 'x' :: body)) :
    (∃ bytes, decodeMarked text = .ok bytes ∧ Spells body bytes) ∨
      ∃ fault, decodeMarked text = .error (.hex fault) ∧ ∀ bytes, ¬Spells body bytes := by
  have hread : decodeMarked text = (decodeLoose (trim text)).mapError .hex := by
    rw [decodeMarked, h.trim_eq]
    rfl
  rw [hread]
  simp only [← decodeLoose_of_trimmed h]
  cases decodeLoose (trim text) with
  | ok bytes => exact .inl ⟨bytes, rfl, rfl⟩
  | error fault => exact .inr ⟨fault, rfl, nofun⟩

theorem decodeMarked_of_not_trimmed (h : ∀ body, ¬Trimmed text ('0' :: 'x' :: body)) :
    decodeMarked text = .error (.missingHexMark (.ofList (trim text))) := by
  have hnone : after? ['0', 'x'] (trim text) = none :=
    Option.eq_none_iff_forall_ne_some.mpr fun body hbody =>
      h body (trimmed_iff.mpr (after?_eq_some_iff.mp hbody))
  rw [decodeMarked, hnone]
  rfl

theorem Spells.unique {bytes bytes' : List UInt8} (h : Spells body bytes)
    (h' : Spells body bytes') : bytes = bytes' := by
  have hdigits : digits bytes = digits bytes' := h.symm.trans h'
  have hread := decode_digits bytes
  rw [hdigits, decode_digits] at hread
  exact (Except.ok.inj hread).symm

theorem decodeMarked_eq_ok_iff {bytes : List UInt8} :
    decodeMarked text = .ok bytes ↔
      ∃ body, Trimmed text ('0' :: 'x' :: body) ∧ Spells body bytes := by
  constructor
  case mp =>
    intro h
    by_cases hmark : ∃ body, Trimmed text ('0' :: 'x' :: body)
    case pos =>
      obtain ⟨body, hbody⟩ := hmark
      rcases decodeMarked_of_trimmed hbody with ⟨bytes', hread, hspells⟩ | ⟨_, hread, -⟩
      case inl =>
        obtain rfl := Except.ok.inj (hread.symm.trans h)
        exact ⟨body, hbody, hspells⟩
      case inr => cases hread.symm.trans h
    case neg => cases h.symm.trans (decodeMarked_of_not_trimmed (not_exists.mp hmark))
  case mpr =>
    rintro ⟨body, hbody, hspells⟩
    rcases decodeMarked_of_trimmed hbody with ⟨bytes', hread, hspells'⟩ | ⟨_, -, hnot⟩
    case inl => rw [hread, hspells.unique hspells']
    case inr => exact absurd hspells (hnot bytes)

theorem decodeMarked_eq_missing_iff :
    (∃ shown, decodeMarked text = .error (.missingHexMark shown)) ↔
      ∀ body, ¬Trimmed text ('0' :: 'x' :: body) := by
  constructor
  case mp =>
    rintro ⟨shown, h⟩ body hbody
    rcases decodeMarked_of_trimmed hbody with ⟨_, hread, -⟩ | ⟨_, hread, -⟩
    · cases hread.symm.trans h
    · cases hread.symm.trans h
  case mpr => exact fun h => ⟨_, decodeMarked_of_not_trimmed h⟩

theorem decodeMarked_eq_hex_iff :
    (∃ fault, decodeMarked text = .error (.hex fault)) ↔
      ∃ body, Trimmed text ('0' :: 'x' :: body) ∧ ∀ bytes, ¬Spells body bytes := by
  constructor
  case mp =>
    rintro ⟨fault, h⟩
    by_cases hmark : ∃ body, Trimmed text ('0' :: 'x' :: body)
    case pos =>
      obtain ⟨body, hbody⟩ := hmark
      refine ⟨body, hbody, fun bytes hspells => ?_⟩
      cases h.symm.trans (decodeMarked_eq_ok_iff.mpr ⟨body, hbody, hspells⟩)
    case neg => cases h.symm.trans (decodeMarked_of_not_trimmed (not_exists.mp hmark))
  case mpr =>
    rintro ⟨body, hbody, hnot⟩
    rcases decodeMarked_of_trimmed hbody with ⟨bytes, -, hspells⟩ | ⟨fault, hread, -⟩
    case inl => exact absurd hspells (hnot bytes)
    case inr => exact ⟨fault, hread⟩

end

theorem isBlank_of_mem_digits {bytes : List UInt8} {c : Char} (h : c ∈ digits bytes) :
    isBlank c = false := by
  have hplain : ∀ n < 16, isBlank (Nat.digitChar n) = false := by decide
  obtain ⟨n, hn, rfl⟩ := exists_of_mem_digits h
  exact hplain n hn

theorem spells_digits (bytes : List UInt8) : Spells (digits bytes) bytes := by
  have hplain : ∀ n < 16, (Nat.digitChar n != '_') = true := by decide
  have hstrip : strip (digits bytes) = digits bytes := by
    refine List.filter_eq_self.mpr fun c hc => ?_
    rw [isBlank_of_mem_digits hc]
    obtain ⟨n, hn, rfl⟩ := exists_of_mem_digits hc
    exact hplain n hn
  rw [Spells, hstrip, map_toLower_digits]

theorem trimmed_encode (bytes : List UInt8) :
    Trimmed (encode bytes).toList ('0' :: 'x' :: digits bytes) := by
  have hblank : ∀ c ∈ '0' :: 'x' :: digits bytes, isBlank c = false := by
    simp only [List.forall_mem_cons]
    exact ⟨rfl, rfl, fun c hc => isBlank_of_mem_digits hc⟩
  rw [toList_encode, trimmed_iff]
  exact trim_eq_self (fun c hc => hblank c (List.mem_of_mem_head? hc))
    fun c hc => hblank c (List.mem_of_getLast? hc)

theorem decodeMarked_encode (bytes : List UInt8) :
    decodeMarked (encode bytes).toList = .ok bytes :=
  decodeMarked_eq_ok_iff.mpr ⟨digits bytes, trimmed_encode bytes, spells_digits bytes⟩

theorem decodeLoose_encode (bytes : List UInt8) : decodeLoose (encode bytes).toList = .ok bytes :=
  decodeLoose_eq_ok_iff.mpr
    ⟨['0', 'x'], by simp [marks], digits bytes, trimmed_encode bytes, spells_digits bytes⟩

theorem bytes?_ofBytes (bytes : List UInt8) : (Json.ofBytes bytes).bytes? = some bytes :=
  bytes?_eq_some_iff.mpr ⟨_, Json.unescape_escape _, decodeLoose_encode bytes⟩

-- What is read as hex text, and how what is not read is refused, are settled by the grammar. What
-- bytes are written as is read as these bytes.
theorem read_by_grammar :
    (∀ text bytes, decodeMarked text = .ok bytes ↔
      ∃ body, Trimmed text ('0' :: 'x' :: body) ∧ Spells body bytes) ∧
    (∀ text, (∃ shown, decodeMarked text = .error (.missingHexMark shown)) ↔
      ∀ body, ¬Trimmed text ('0' :: 'x' :: body)) ∧
    (∀ text, (∃ fault, decodeMarked text = .error (.hex fault)) ↔
      ∃ body, Trimmed text ('0' :: 'x' :: body) ∧ ∀ bytes, ¬Spells body bytes) ∧
    (∀ (value : Json) bytes, value.bytes? = some bytes ↔ ∃ text, value.chars? = some text ∧
      ∃ mark ∈ marks, ∃ body, Trimmed text (mark ++ body) ∧ Spells body bytes) ∧
    ∀ bytes, decodeMarked (encode bytes).toList = .ok bytes ∧
      Prelude.ofText (Prelude.mk bytes).toHex.toList = .ok ⟨bytes⟩ ∧
      (Json.ofText (encode bytes)).bytes? = some bytes := by
  refine ⟨fun _ _ => decodeMarked_eq_ok_iff, fun _ => decodeMarked_eq_missing_iff,
    fun _ => decodeMarked_eq_hex_iff, fun _ _ => ?_, fun bytes => ⟨decodeMarked_encode bytes, ?_,
    bytes?_ofBytes bytes⟩⟩
  · simp only [bytes?_eq_some_iff, decodeLoose_eq_ok_iff]
  · rw [Prelude.ofText, Prelude.toHex, decodeMarked_encode]
    rfl

end Hex

end Splice
