import Mathlib.Algebra.Group.Nat.Defs
import Splice.Artifact
import Splice.Proofs.Hex
import Splice.Proofs.Json
import Splice.Record

namespace Splice

namespace Numeral

theorem readDigits_append (base limit : Nat) (cs ds : List Char) (n : Nat) :
    readDigits base limit n (cs ++ ds) =
      (readDigits base limit n cs).bind fun m => readDigits base limit m ds := by
  induction cs generalizing n with
  | nil => rfl
  | cons c cs ih =>
    rw [List.cons_append, readDigits, readDigits]
    cases digitValue? c with
    | none => rfl
    | some d =>
      dsimp only
      split
      case isTrue => rfl
      split
      case isTrue => rfl
      exact ih _

theorem readDigits_toDigits {n limit : Nat} (h : n < limit) :
    readDigits 10 limit 0 (Nat.toDigits 10 n) = .ok n := by
  induction n using Nat.strongRecOn with
  | ind n ih =>
    have hlast {m d : Nat} (hd : d < 10) (hlimit : m * 10 + d < limit) :
        readDigits 10 limit m [Nat.digitChar d] = .ok (m * 10 + d) := by
      have hvalue := digitValue?_digitChar (Nat.lt_trans hd (by decide))
      simp [readDigits, hvalue, Nat.not_le.mpr hd, Nat.not_le.mpr hlimit]
    rw [Nat.toDigits_eq_if (by decide)]
    split
    case isTrue hn => simpa using hlast (m := 0) hn (by simpa using h)
    case isFalse hn =>
      have hsum : n / 10 * 10 + n % 10 = n := by omega
      rw [readDigits_append, ih (n / 10) (by omega) (by omega)]
      exact (hlast (Nat.mod_lt _ (by decide)) (by omega)).trans (congrArg Except.ok hsum)

end Numeral

namespace Json

namespace Token

theorem head?_toDigits {n : Nat} (h : n ≠ 0) : (Nat.toDigits 10 n).head? ≠ some '0' := by
  induction n using Nat.strongRecOn with
  | ind n ih =>
    rw [Nat.toDigits_eq_if (by decide)]
    split
    case isTrue hn =>
      have all : ∀ n < 10, n ≠ 0 → Nat.digitChar n ≠ '0' := by decide
      simpa using all n hn h
    case isFalse hn =>
      have hhead := ih (n / 10) (by omega) (by omega)
      rwa [List.head?_append_of_ne_nil _ Nat.toDigits_ne_nil]

theorem isNumber_of_areDigits {cs : List Char} (h : areDigits cs) (hzero : cs.head? ≠ some '0') :
    isNumber cs := by
  have hall : ∀ c ∈ cs, isDigit c := by
    simp only [areDigits, Bool.and_eq_true, List.all_eq_true] at h
    exact h.2
  have hminus : ∀ rest, cs ≠ '-' :: rest := by
    rintro rest rfl
    cases hall '-' List.mem_cons_self
  have hzero : ∀ rest, cs ≠ '0' :: rest := by
    rintro rest rfl
    exact hzero rfl
  rw [isNumber.eq_2 _ hminus, isMagnitude.eq_2 _ hzero, List.takeWhile_eq_self_iff.mpr hall, h,
    List.dropWhile_eq_nil_iff.mpr hall]
  rfl

theorem isNumber_toDigits (n : Nat) : isNumber (Nat.toDigits 10 n) := by
  by_cases hn : n = 0
  case pos => exact hn ▸ rfl
  case neg =>
    refine isNumber_of_areDigits ?_ (head?_toDigits hn)
    simp only [areDigits, Bool.and_eq_true, List.all_eq_true]
    refine ⟨by simp [Nat.toDigits_ne_nil], fun c hc => ?_⟩
    have hc := Nat.isDigit_of_mem_toDigits (by decide) (by decide) hc
    simpa [isDigit, Char.le_def, Char.isDigit] using hc

end Token

open Numeral Token

theorem chars?_ofText (s : String) : (ofText s).chars? = some s.toList :=
  unescape_escape s.toList

theorem text?_ofText (s : String) : (ofText s).text? = some s := by
  rw [text?, chars?_ofText, Option.map_some, String.ofList_toList]

theorem size?_ofNat {n : Nat} (h : n < 2 ^ 64) : (ofNat n).size? = some n := by
  have hbound : BigEndian.bound 8 = 2 ^ 64 := by decide
  rw [ofNat, size?, hbound, readDigits_toDigits h]
  rfl

theorem sound_ofText (s : String) : Sound (ofText s) :=
  .string (body_escape s.toList)

theorem sound_ofBytes (bytes : List UInt8) : Sound (ofBytes bytes) :=
  sound_ofText _

theorem sound_ofNat (n : Nat) : Sound (ofNat n) :=
  .number (isNumber_toDigits n)

section

variable {members : List (String × Json)}

theorem sound_ofMembers (h : ∀ m ∈ members, Sound m.2) : Sound (ofMembers members) := by
  refine .object ?_ ?_ <;> simp only [List.forall_mem_map]
  · exact fun m _ => body_escape m.1.toList
  · exact h

theorem mapM_map_eq_some {α β γ : Type} {f : β → Option γ} {g : α → β} {r : α → γ} {l : List α}
    (h : ∀ a ∈ l, f (g a) = some (r a)) : (l.map g).mapM f = some (l.map r) := by
  induction l with
  | nil => rfl
  | cons a l ih =>
    have ⟨ha, hl⟩ := List.forall_mem_cons.mp h
    simp [List.mapM_cons, ha, ih hl]

theorem filter_key_eq {α β : Type} [DecidableEq α] {l : List (α × β)} (h : (l.map (·.1)).Nodup)
    {m : α × β} (hm : m ∈ l) : l.filter (·.1 = m.1) = [m] := by
  induction l with
  | nil => cases hm
  | cons a l ih =>
    obtain ⟨ha, hl⟩ := List.nodup_cons.mp h
    have hne {b : α × β} (hb : b ∈ l) : a.1 ≠ b.1 :=
      fun heq => ha (List.mem_map.mpr ⟨b, hb, heq.symm⟩)
    rcases List.mem_cons.mp hm with rfl | hm
    case inl =>
      have hnone : l.filter (·.1 = m.1) = [] :=
        List.filter_eq_nil_iff.mpr fun b hb => by simpa using (hne hb).symm
      rw [List.filter_cons_of_pos (by simp), hnone]
    case inr => rw [List.filter_cons_of_neg (by simpa using hne hm), ih hl hm]

theorem fields?_ofMembers {names : List String} (hnames : names = members.map (·.1))
    (h : names.Nodup) : (ofMembers members).fields? names = some (members.map (some ·.2)) := by
  subst hnames
  refine Option.bind_eq_some_iff.mpr ⟨members.map fun m => (m.1.toList, m.2),
    mapM_map_eq_some fun m _ => by simp [unescape_escape], mapM_map_eq_some fun m hm => ?_⟩
  have hfilter : (members.map fun m => (m.1.toList, m.2)).filter (·.1 = m.1.toList) =
      [(m.1.toList, m.2)] := by
    rw [List.filter_map]
    simp [Function.comp_def, String.toList_inj, filter_key_eq h hm]
  rw [hfilter]

end

end Json

namespace Artifact

open Json

theorem sound_toJson (a : Artifact) : Sound a.toJson := by
  refine sound_ofMembers ?_
  simp [sound_ofText, sound_ofBytes]

theorem ofJson?_toJson (a : Artifact) : ofJson? a.toJson = some a := by
  have hfields : a.toJson.fields? ["contractName", "bytecode", "deployedBytecode"] =
      some [some (.ofText a.contractName), some (.ofBytes a.bytecode),
        some (.ofBytes a.deployedBytecode)] :=
    fields?_ofMembers rfl (by decide)
  simp [ofJson?, hfields, text?_ofText, Hex.bytes?_ofBytes]

theorem parse_write (a : Artifact) (indent : Option Nat) :
    parse (a.toJson.write indent) = .ok a := by
  rw [parse, parse?_write a.sound_toJson, Option.bind_some, ofJson?_toJson]

end Artifact

namespace Record

open Json

theorem sound_toJson (r : Record) : Sound r.toJson := by
  refine sound_ofMembers ?_
  simp [sound_ofText, sound_ofNat, sound_ofBytes]

theorem ofJson?_toJson {r : Record} (h : r.preludeSize < 2 ^ 64) : ofJson? r.toJson = some r := by
  have hfields : r.toJson.fields?
      ["contractName", "prelude", "preludeSize", "bytecode", "deployedBytecode"] =
      some [some (.ofText r.contractName), some (.ofText r.prelude), some (.ofNat r.preludeSize),
        some (.ofBytes r.bytecode), some (.ofBytes r.deployedBytecode)] :=
    fields?_ofMembers rfl (by decide)
  simp [ofJson?, hfields, text?_ofText, size?_ofNat h, Hex.bytes?_ofBytes]

theorem parse?_write {r : Record} (h : r.preludeSize < 2 ^ 64) (indent : Option Nat) :
    (Json.parse? (r.toJson.write indent)).bind ofJson? = some r := by
  rw [Json.parse?_write r.sound_toJson, Option.bind_some, ofJson?_toJson h]

end Record

-- Artifacts and records are got back from what they are written as, in either layout.
theorem documents_survive (a : Artifact) {r : Record} (h : r.preludeSize < 2 ^ 64) :
    Artifact.parse a.toJson.compact.toList = .ok a ∧
      Artifact.parse a.toJson.pretty.toList = .ok a ∧
      (Json.parse? r.toJson.compact.toList).bind Record.ofJson? = some r ∧
      (Json.parse? r.toJson.pretty.toList).bind Record.ofJson? = some r := by
  simp only [Json.compact, Json.pretty, String.toList_ofList]
  exact ⟨a.parse_write none, a.parse_write (some 0), r.parse?_write h none,
    r.parse?_write h (some 0)⟩

def quaint : Record where
  contractName := "\x7b \"Ünï\"\\/\x7d\n\x01"
  prelude := "0x\u20ac\t"
  preludeSize := 18446744073709551615
  bytecode := [0x00, 0xff]
  deployedBytecode := []

theorem documents_survive_quaint :
    quaint.preludeSize < 2 ^ 64 ∧
      Artifact.parse (Artifact.mk quaint.contractName [0x5b] []).toJson.compact.toList =
        .ok ⟨quaint.contractName, [0x5b], []⟩ ∧
      Artifact.parse (Artifact.mk quaint.contractName [0x5b] []).toJson.pretty.toList =
        .ok ⟨quaint.contractName, [0x5b], []⟩ ∧
      (Json.parse? quaint.toJson.compact.toList).bind Record.ofJson? = some quaint ∧
      (Json.parse? quaint.toJson.pretty.toList).bind Record.ofJson? = some quaint :=
  ⟨by decide, documents_survive ⟨quaint.contractName, [0x5b], []⟩ (by decide)⟩

end Splice
