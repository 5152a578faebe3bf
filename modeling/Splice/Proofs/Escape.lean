import Splice.Json.Escape

namespace Splice.Json

open Numeral

inductive Body : List Char → Prop
  | nil : Body []
  | plain {c rest} (hquote : c ≠ '"') (hslash : c ≠ '\\') (hc : 0x20 ≤ c.toNat)
      (hrest : Body rest) : Body (c :: rest)
  | simple {c rest} (hc : (simpleEscape? c).isSome) (hrest : Body rest) : Body ('\\' :: c :: rest)
  | unit {a b c d rest} (hunit : (unit? a b c d).isSome) (hrest : Body rest) :
      Body ('\\' :: 'u' :: a :: b :: c :: d :: rest)

theorem ne_u_of_simpleEscape? {c : Char} (hc : (simpleEscape? c).isSome) : c ≠ 'u' := by
  rintro rfl
  exact absurd hc (by decide)

theorem Body.isBody {body : List Char} (h : Body body) : isBody body := by
  induction h with
  | nil => rfl
  | plain _ hslash hc _ ih => simp [Json.isBody, hslash, hc, ih]
  | simple hc _ ih => simp [Json.isBody, ne_u_of_simpleEscape? hc, hc, ih]
  | unit hunit _ ih => simp [Json.isBody, hunit, ih]

inductive Escaped (c : Char) : List Char → Prop
  | plain (hquote : c ≠ '"') (hslash : c ≠ '\\') (hc : 0x20 ≤ c.toNat) : Escaped c [c]
  | simple {e} (he : simpleEscape? e = some c) : Escaped c ['\\', e]
  | unit {d e} (hunit : unit? '0' '0' d e = some c.toNat) (hc : c.toNat < 0x20) :
      Escaped c ['\\', 'u', '0', '0', d, e]

theorem escaped_hexDigits {c : Char} (hc : c.toNat < 0x20) :
    Escaped c (['\\', 'u', '0', '0'] ++ hexDigits (.ofNat c.toNat)) := by
  have hbyte : (UInt8.ofNat c.toNat).toNat = c.toNat := by
    rw [UInt8.toNat_ofNat']
    omega
  have zero : digitValue? '0' = some 0 := rfl
  have high := digitValue?_digitChar (n := c.toNat / 16) (by omega)
  have low := digitValue?_digitChar (n := c.toNat % 16) (by omega)
  rw [hexDigits, hbyte]
  refine .unit ?_ hc
  rw [unit?, zero, high, low]
  exact congrArg some (by omega)

theorem escaped_escapeChar (c : Char) : Escaped c (escapeChar c) := by
  unfold escapeChar
  iterate 7
    split
    case isTrue h =>
      subst h
      exact .simple rfl
  split
  case isTrue h => exact escaped_hexDigits h
  case isFalse h => exact .plain ‹_› ‹_› (by omega)

theorem Escaped.body {c : Char} {cs rest : List Char} (h : Escaped c cs) (hrest : Body rest) :
    Body (cs ++ rest) := by
  cases h with
  | plain hquote hslash hc => exact .plain hquote hslash hc hrest
  | simple he => exact .simple (he ▸ rfl) hrest
  | unit hunit => exact .unit (hunit ▸ rfl) hrest

theorem Escaped.unescapeOnto {c : Char} {cs : List Char} (h : Escaped c cs)
    (done rest : List Char) : unescapeOnto done (cs ++ rest) = unescapeOnto (c :: done) rest := by
  cases h with
  | plain _ hslash => simp [Json.unescapeOnto, hslash]
  | @simple e he =>
    have hu : e ≠ 'u' := ne_u_of_simpleEscape? (by simp [he])
    simp [Json.unescapeOnto, hu, he]
  | unit hunit hc =>
    have hhigh : ¬(0xd800 ≤ c.toNat ∧ c.toNat < 0xdc00) := by omega
    have hlow : ¬(0xdc00 ≤ c.toNat ∧ c.toNat < 0xe000) := by omega
    simp [Json.unescapeOnto, hunit, hhigh, hlow]

theorem body_escape (text : List Char) : Body (escape text) := by
  induction text with
  | nil => exact .nil
  | cons c text ih => exact (escaped_escapeChar c).body ih

theorem unescape_escape (text : List Char) : unescape (escape text) = some text := by
  suffices h : ∀ done, unescapeOnto done (escape text) = some (done.reverse ++ text) from h []
  induction text with
  | nil => exact fun done => congrArg some (List.append_nil _).symm
  | cons c text ih =>
    intro done
    rw [escape, List.flatMap_cons, (escaped_escapeChar c).unescapeOnto, ← escape, ih]
    simp

end Splice.Json
