import Mathlib.Data.List.Nodup
import Splice.Opcode.Mnemonic
import Splice.Proofs.Program

namespace Splice

namespace Opcode

open Numeral

-- Whether numbers all differ. To decide `List.Nodup` itself takes too long on a table.
def distinct : List Nat → Bool
  | [] => true
  | n :: l => l.all (!Nat.beq n ·) && distinct l

theorem nodup_of_distinct {l : List Nat} (h : distinct l) : l.Nodup := by
  induction l with
  | nil => exact .nil
  | cons n l ih =>
    obtain ⟨hn, hl⟩ : (∀ m ∈ l, n.beq m = false) ∧ distinct l := by simpa [distinct] using h
    exact List.nodup_cons.mpr ⟨fun hm => Nat.ne_of_beq_eq_false (hn n hm) rfl, ih hl⟩

theorem find?_of_distinct {α β : Type} [DecidableEq β] {f : α → β} {key : β → Nat} {l : List α}
    (h : distinct (l.map (key ∘ f))) {a : α} (ha : a ∈ l) {b : β} (hb : f a = b) :
    l.find? (f · = b) = some a := by
  subst hb
  cases hf : l.find? (f · = f a) with
  | none => simpa using List.find?_eq_none.mp hf a ha
  | some a' =>
    have he : f a' = f a := by simpa using List.find?_some hf
    rw [List.inj_on_of_nodup_map (nodup_of_distinct h) (List.mem_of_find?_eq_some hf) ha
      (congrArg key he)]

theorem ofByte_toByte_of_named {op : Opcode} (h : op ∈ named) : ofByte op.toByte = op := by
  have hout : ∀ op ∈ named, op.toByte < 0x60 ∨ 0x9f < op.toByte := by decide +kernel
  have hdistinct : distinct (named.map (UInt8.toNat ∘ toByte)) := by decide +kernel
  have hb := hout op h
  simp only [UInt8.lt_iff_toNat_lt, UInt8.reduceToNat] at hb
  simp only [ofByte, UInt8.le_iff_toNat_le, UInt8.reduceToNat]
  rw [if_neg (by omega), if_neg (by omega), if_neg (by omega), find?_of_distinct hdistinct h rfl,
    Option.getD_some]

theorem mem_mnemonics_iff {op : Opcode} :
    op ∈ mnemonics ↔ op ∈ named ∨ (∃ n < 32, push (n + 1) = op) ∨ (∃ n < 16, dup (n + 1) = op) ∨
      ∃ n < 16, swap (n + 1) = op := by
  simp [mnemonics]

theorem ofByte_toByte_of_mem {op : Opcode} (h : op ∈ mnemonics) : ofByte op.toByte = op := by
  have hpush : ∀ n < 32, ofByte (push (n + 1)).toByte = push (n + 1) := by decide +kernel
  have hdup : ∀ n < 16, ofByte (dup (n + 1)).toByte = dup (n + 1) := by decide +kernel
  have hswap : ∀ n < 16, ofByte (swap (n + 1)).toByte = swap (n + 1) := by decide +kernel
  rcases mem_mnemonics_iff.mp h with h | ⟨n, hn, rfl⟩ | ⟨n, hn, rfl⟩ | ⟨n, hn, rfl⟩
  · exact ofByte_toByte_of_named h
  · exact hpush n hn
  · exact hdup n hn
  · exact hswap n hn

theorem mem_mnemonics_of_ofCount {family : String} {member : Nat → Opcode} {limit : Nat}
    {token count : List Char} {op : Opcode}
    (hmember : ∀ n < limit, member (n + 1) ∈ mnemonics)
    (h : ofCount family member limit token count = .ok op) : op ∈ mnemonics := by
  rw [ofCount] at h
  split at h
  case h_2 => cases h
  case h_1 n _ =>
    split at h
    case isFalse => cases h
    case isTrue hn =>
      cases h
      obtain ⟨n, rfl⟩ := Nat.exists_eq_add_one.mpr hn.1
      exact hmember n (by omega)

theorem mem_mnemonics_of_ofMnemonic {token : List Char} {op : Opcode}
    (h : ofMnemonic token = .ok op) : op ∈ mnemonics := by
  have hpush n (hn : n < 32) : push (n + 1) ∈ mnemonics :=
    mem_mnemonics_iff.mpr (.inr (.inl ⟨n, hn, rfl⟩))
  have hdup n (hn : n < 16) : dup (n + 1) ∈ mnemonics :=
    mem_mnemonics_iff.mpr (.inr (.inr (.inl ⟨n, hn, rfl⟩)))
  have hswap n (hn : n < 16) : swap (n + 1) ∈ mnemonics :=
    mem_mnemonics_iff.mpr (.inr (.inr (.inr ⟨n, hn, rfl⟩)))
  have hsecond {op : Opcode} (h : op ∈ named) : op ∈ mnemonics := mem_mnemonics_iff.mpr (.inl h)
  rw [ofMnemonic] at h
  split at h
  case h_1 hfind =>
    cases h
    exact List.mem_of_find?_eq_some hfind
  case h_2 =>
    split at h
    case isTrue =>
      cases h
      exact hsecond (by decide)
    split at h
    case isTrue =>
      cases h
      exact hsecond (by decide)
    split at h
    case h_1 => exact mem_mnemonics_of_ofCount hpush h
    split at h
    case h_1 => exact mem_mnemonics_of_ofCount hdup h
    split at h
    case h_1 => exact mem_mnemonics_of_ofCount hswap h
    case h_2 => cases h

def isSign (c : Char) : Bool :=
  let n := c.toNat
  (0x41 ≤ n && n ≤ 0x5a) || (0x30 ≤ n && n ≤ 0x39)

theorem isSign_of_isDigit {c : Char} (h : c.isDigit) : isSign c := by
  obtain ⟨hlow, hhigh⟩ := (by simpa [Char.isDigit] using h : '0'.val ≤ c.val ∧ c.val ≤ '9'.val)
  have hlow : 0x30 ≤ c.toNat := UInt32.le_iff_toNat_le.mp hlow
  have hhigh : c.toNat ≤ 0x39 := UInt32.le_iff_toNat_le.mp hhigh
  simp [isSign, hlow, hhigh]

theorem toUpper_of_isSign {c : Char} (h : isSign c) : c.toUpper = c := by
  simp only [isSign, Bool.or_eq_true, Bool.and_eq_true, decide_eq_true_eq] at h
  have hnot : ¬('a'.val ≤ c.val ∧ c.val ≤ 'z'.val) := by
    rintro ⟨hlow, -⟩
    have hlow : 0x61 ≤ c.toNat := UInt32.le_iff_toNat_le.mp hlow
    omega
  exact dif_neg hnot

structure IsName (cs : List Char) : Prop where
  ne_nil : cs ≠ []
  signs  : ∀ c ∈ cs, isSign c

theorem isName_or_eq_unknown (op : Opcode) : IsName op.name.toList ∨ ∃ b, op = unknown b := by
  have hname {cs : List Char} (hne : cs ≠ []) (h : cs.all isSign) :
      IsName (String.ofList cs).toList := by
    rw [String.toList_ofList]
    exact ⟨hne, List.all_eq_true.mp h⟩
  have hfamily (family : List Char) (hne : family ≠ []) (h : family.all isSign) (n : Nat) :
      IsName (String.ofList family ++ decimal n).toList := by
    rw [decimal, ← String.ofList_append, String.toList_ofList]
    refine ⟨by simp [hne], List.forall_mem_append.mpr ⟨List.all_eq_true.mp h, fun c hc => ?_⟩⟩
    exact isSign_of_isDigit (Nat.isDigit_of_mem_toDigits (by decide) (by decide) hc)
  cases op with
  | push n => exact .inl (hfamily ['P', 'U', 'S', 'H'] (by decide) (by decide) n)
  | dup n => exact .inl (hfamily ['D', 'U', 'P'] (by decide) (by decide) n)
  | swap n => exact .inl (hfamily ['S', 'W', 'A', 'P'] (by decide) (by decide) n)
  | unknown b => exact .inr ⟨b, rfl⟩
  | _ => exact .inl (hname (List.cons_ne_nil _ _) rfl)

theorem isName_of_mem {op : Opcode} (h : op ∈ mnemonics) : IsName op.name.toList := by
  rcases isName_or_eq_unknown op with hname | ⟨b, rfl⟩
  case inl => exact hname
  case inr => simp [mem_mnemonics_iff, named] at h

theorem ofMnemonic_name {op : Opcode} (h : op ∈ mnemonics) :
    ofMnemonic op.name.toList = .ok op := by
  have hdistinct : distinct (mnemonics.map
      ((fun s : String => BigEndian.value s.toUTF8.data.toList) ∘ name)) := by decide +kernel
  have hupper : op.name.toList.map Char.toUpper = op.name.toList :=
    (List.map_congr_left fun c hc => toUpper_of_isSign ((isName_of_mem h).signs c hc)).trans
      (List.map_id _)
  rw [ofMnemonic, hupper]
  simp only [String.toList_inj]
  rw [find?_of_distinct hdistinct h rfl]

theorem mem_mnemonics_or_eq_unknown (b : UInt8) : ofByte b ∈ mnemonics ∨ ofByte b = unknown b := by
  rw [mem_mnemonics_iff]
  rcases ofByte_cases b with ⟨n, hn, h⟩ | ⟨n, hn, h⟩ | ⟨n, hn, h⟩ | h | h
  case inl => exact .inl (.inr (.inl ⟨n, hn, h.symm⟩))
  case inr.inl => exact .inl (.inr (.inr (.inl ⟨n, hn, h.symm⟩)))
  case inr.inr.inl => exact .inl (.inr (.inr (.inr ⟨n, hn, h.symm⟩)))
  case inr.inr.inr.inl => exact .inl (.inl h)
  case inr.inr.inr.inr => exact .inr h

theorem toList_name_unknown (b : UInt8) :
    (unknown b).name.toList = "UNKNOWN(0x".toList ++ (hexDigits b ++ [')']) := by
  have hname : (unknown b).name = "UNKNOWN(0x" ++ .ofList (hexDigits b) ++ ")" := rfl
  simp [hname]

end Opcode
end Splice
