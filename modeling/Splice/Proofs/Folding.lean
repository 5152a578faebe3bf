import Splice.Proofs.Coverage
import Splice.Proofs.Guarded.Fold

namespace Splice

namespace Word

theorem signedDivide_eq (a b : Word) : signedDivide a b = BitVec.sdiv a b := by
  simp only [signedDivide]
  split
  case isTrue hb => simp [hb]
  case isFalse =>
    rw [BitVec.sdiv_eq]
    cases ha : a.msb <;> cases hb : b.msb <;> simp [magnitude, ha, hb]

theorem signedRemainder_eq {a b : Word} (h : b ≠ 0) : signedRemainder a b = BitVec.srem a b := by
  rw [signedRemainder, if_neg h, BitVec.srem_eq]
  cases ha : a.msb <;> cases hb : b.msb <;> simp [magnitude, ha, hb]

theorem getLsbD_mask {bits i : Nat} :
    (mask bits).getLsbD i = (decide (i < 256) && decide (i < bits)) := by
  have h : mask bits = ~~~(BitVec.allOnes 256 <<< bits) := by
    rw [mask, ← BitVec.not_neg, ← BitVec.shiftLeft_neg, BitVec.neg_one_eq_allOnes]
  rw [h, BitVec.getLsbD_not, BitVec.getLsbD_shiftLeft, BitVec.getLsbD_allOnes]
  by_cases hi : i < 256
  case pos =>
    simp only [hi, decide_true, Bool.true_and]
    by_cases hlt : i < bits <;> simp [hlt]
    omega
  case neg => simp [hi]

theorem extendSign_eq {k : Word} (h : k.toNat < 31) (value : Word) :
    extendSign k value = (value.setWidth (k.toNat * 8 + 7 + 1)).signExtend 256 := by
  have hmsb : (value.setWidth (k.toNat * 8 + 7 + 1)).msb = value.getLsbD (k.toNat * 8 + 7) := by
    rw [BitVec.msb_eq_getLsbD_last, BitVec.getLsbD_setWidth]
    simp
  rw [extendSign, if_pos (BitVec.lt_def.mpr h)]
  apply BitVec.eq_of_getLsbD_eq
  intro i hi
  rw [BitVec.getLsbD_signExtend, hmsb, BitVec.getLsbD_setWidth]
  by_cases hsign : value.getLsbD (k.toNat * 8 + 7) <;> by_cases hlt : i < k.toNat * 8 + 7 + 1
  all_goals simp [hsign, hlt, hi, getLsbD_mask, -BitVec.getLsbD_eq_getElem]

theorem shiftLeft_eq (shift value : Word) : shiftLeft shift value = value <<< shift.toNat := by
  have hlt : shift < 256 ↔ shift.toNat < 256 := BitVec.lt_def
  simp only [shiftLeft, hlt]
  split
  case isTrue => rfl
  case isFalse h => exact (BitVec.shiftLeft_eq_zero (Nat.not_lt.mp h)).symm

theorem shiftRight_eq (shift value : Word) : shiftRight shift value = value >>> shift.toNat := by
  have hlt : shift < 256 ↔ shift.toNat < 256 := BitVec.lt_def
  simp only [shiftRight, hlt]
  split
  case isTrue => rfl
  case isFalse h => exact (BitVec.ushiftRight_eq_zero (Nat.not_lt.mp h)).symm

theorem shiftRightSigned_eq (shift value : Word) :
    shiftRightSigned shift value = value.sshiftRight shift.toNat := by
  have hlt : shift < 256 ↔ shift.toNat < 256 := BitVec.lt_def
  have hzero (h : ¬shift.toNat < 256) (x : Word) : x >>> shift.toNat = 0#256 :=
    BitVec.ushiftRight_eq_zero (Nat.not_lt.mp h)
  simp only [shiftRightSigned, hlt]
  cases hv : value.msb with
  | true =>
    rw [BitVec.sshiftRight_eq_of_msb_true hv]
    split
    case isTrue => rfl
    case isFalse h => rw [hzero h, BitVec.not_zero]; rfl
  | false =>
    rw [BitVec.sshiftRight_eq_of_msb_false hv]
    split
    case isTrue => rfl
    case isFalse h => rw [hzero h]; rfl

end Word

-- What the operations of the machine compute, told in integers.
namespace Arithmetic

def signed (bits n : Nat) : Int :=
  let low := n % 2 ^ bits
  if 2 * low < 2 ^ bits then low else low - (2 ^ bits : Nat)

def wrap (z : Int) : Nat :=
  (z % (2 ^ 256 : Nat)).toNat

def flag (condition : Prop) [Decidable condition] : Nat :=
  if condition then 1 else 0

-- The result of an operation, the top of the stack first. Quotients and remainders of signed
-- numbers truncate toward zero, and a right shift is a division that rounds down.
def result : Opcode → List Nat → Option Nat
  | .add, [a, b] => some (wrap (a + b))
  | .mul, [a, b] => some (wrap (a * b))
  | .sub, [a, b] => some (wrap (a - b))
  | .div, [a, b] => some (if b = 0 then 0 else a / b)
  | .sdiv, [a, b] => some (if b = 0 then 0 else wrap ((signed 256 a).tdiv (signed 256 b)))
  | .mod, [a, b] => some (if b = 0 then 0 else a % b)
  | .smod, [a, b] => some (if b = 0 then 0 else wrap ((signed 256 a).tmod (signed 256 b)))
  | .addmod, [a, b, n] => some (if n = 0 then 0 else (a + b) % n)
  | .mulmod, [a, b, n] => some (if n = 0 then 0 else a * b % n)
  | .exp, [a, b] => some (a ^ b % 2 ^ 256)
  | .signextend, [k, n] => some (if k < 31 then wrap (signed (8 * k + 8) n) else n)
  | .lt, [a, b] => some (flag (a < b))
  | .gt, [a, b] => some (flag (b < a))
  | .slt, [a, b] => some (flag (signed 256 a < signed 256 b))
  | .sgt, [a, b] => some (flag (signed 256 b < signed 256 a))
  | .eq, [a, b] => some (flag (a = b))
  | .iszero, [a] => some (flag (a = 0))
  | .and, [a, b] => some (a &&& b)
  | .or, [a, b] => some (a ||| b)
  | .xor, [a, b] => some (a ^^^ b)
  | .not, [a] => some (2 ^ 256 - 1 - a)
  | .byte, [i, n] => some (if i < 32 then n / 256 ^ (31 - i) % 256 else 0)
  | .shl, [s, n] => some (wrap (n * (2 ^ s : Nat)))
  | .shr, [s, n] => some (n / 2 ^ s)
  | .sar, [s, n] => some (wrap (signed 256 n / (2 ^ s : Nat)))
  | _, _ => none

theorem wrap_natCast (n : Nat) : wrap n = n % 2 ^ 256 := by
  rw [wrap]
  omega

theorem wrap_bmod (z : Int) : wrap (z.bmod (2 ^ 256)) = wrap z := by
  rw [wrap, wrap, Int.bmod_emod]

theorem toNat_ofInt (z : Int) : (BitVec.ofInt 256 z).toNat = wrap z :=
  BitVec.toNat_ofInt z

theorem wrap_toInt (a : Word) : wrap a.toInt = a.toNat := by
  rw [← toNat_ofInt, BitVec.ofInt_toInt]

theorem signed_toNat (bits : Nat) (a : Word) : signed bits a.toNat = (a.setWidth bits).toInt := by
  rw [BitVec.toInt_eq_toNat_cond, BitVec.toNat_setWidth]
  rfl

theorem signed_toNat_self (a : Word) : signed 256 a.toNat = a.toInt := by
  rw [signed_toNat, BitVec.setWidth_eq]

theorem slt_iff {a b : Word} :
    BitVec.slt a b = true ↔ signed 256 a.toNat < signed 256 b.toNat := by
  rw [BitVec.slt_iff_toInt_lt, signed_toNat_self, signed_toNat_self]

theorem toNat_flag {condition : Bool} {p : Prop} [Decidable p] (h : condition = true ↔ p) :
    (Word.flag condition).toNat = flag p := by
  cases condition <;> simp_all [Word.flag, flag]

section

open Word

variable (a b n : Word)

theorem toNat_add : (a + b).toNat = wrap (a.toNat + b.toNat) := by
  rw [BitVec.toNat_add, ← wrap_natCast, Int.natCast_add]

theorem toNat_mul : (a * b).toNat = wrap (a.toNat * b.toNat) := by
  rw [BitVec.toNat_mul, ← wrap_natCast, Int.natCast_mul]

theorem toNat_sub : (a - b).toNat = wrap (a.toNat - b.toNat) := by
  have hb := b.isLt
  rw [BitVec.toNat_sub, wrap]
  omega

theorem toNat_eq_zero_iff {b : Word} : b.toNat = 0 ↔ b = 0 :=
  ⟨fun h => BitVec.eq_of_toNat_eq h, fun h => h ▸ rfl⟩

theorem toNat_divide :
    (divide a b).toNat = if b.toNat = 0 then 0 else a.toNat / b.toNat := by
  rw [divide, BitVec.toNat_udiv]
  split
  case isTrue h => simp [h]
  case isFalse => rfl

theorem toNat_signedDivide :
    (signedDivide a b).toNat =
      if b.toNat = 0 then 0 else wrap ((signed 256 a.toNat).tdiv (signed 256 b.toNat)) := by
  simp only [signed_toNat_self, toNat_eq_zero_iff]
  split
  case isTrue h => simp [h]
  case isFalse => rw [signedDivide_eq, ← wrap_toInt, BitVec.toInt_sdiv, wrap_bmod]

theorem toNat_remainder :
    (remainder a b).toNat = if b.toNat = 0 then 0 else a.toNat % b.toNat := by
  simp only [remainder, toNat_eq_zero_iff, apply_ite BitVec.toNat]
  rfl

theorem toNat_signedRemainder :
    (signedRemainder a b).toNat =
      if b.toNat = 0 then 0 else wrap ((signed 256 a.toNat).tmod (signed 256 b.toNat)) := by
  simp only [signed_toNat_self, toNat_eq_zero_iff]
  split
  case isTrue h => simp [h]
  case isFalse h => rw [signedRemainder_eq h, ← wrap_toInt, BitVec.toInt_srem]

theorem toNat_ofNat_mod {m : Nat} (h : n.toNat ≠ 0) :
    (BitVec.ofNat 256 (m % n.toNat)).toNat = m % n.toNat := by
  have hlt := Nat.mod_lt m (Nat.pos_of_ne_zero h)
  rw [BitVec.toNat_ofNat, Nat.mod_eq_of_lt (Nat.lt_trans hlt n.isLt)]

theorem toNat_addMod :
    (addMod a b n).toNat = if n.toNat = 0 then 0 else (a.toNat + b.toNat) % n.toNat := by
  simp only [addMod, ← toNat_eq_zero_iff]
  split
  case isTrue => rfl
  case isFalse h => exact toNat_ofNat_mod n h

theorem toNat_mulMod :
    (mulMod a b n).toNat = if n.toNat = 0 then 0 else a.toNat * b.toNat % n.toNat := by
  simp only [mulMod, ← toNat_eq_zero_iff]
  split
  case isTrue => rfl
  case isFalse h => exact toNat_ofNat_mod n h

theorem toNat_extendSign :
    (extendSign a b).toNat =
      if a.toNat < 31 then wrap (signed (8 * a.toNat + 8) b.toNat) else b.toNat := by
  split
  case isTrue h =>
    rw [extendSign_eq h, signed_toNat, ← toNat_ofInt, Nat.mul_comm 8]
    rfl
  case isFalse h => rw [extendSign, if_neg (by rwa [BitVec.lt_def])]

theorem toNat_byteAt :
    (byteAt a b).toNat = if a.toNat < 32 then b.toNat / 256 ^ (31 - a.toNat) % 256 else 0 := by
  have hlt : a < 32 ↔ a.toNat < 32 := BitVec.lt_def
  simp only [byteAt, hlt]
  split
  case isTrue =>
    rw [BitVec.toNat_and, BitVec.toNat_ushiftRight, Nat.shiftRight_eq_div_pow, Nat.pow_mul]
    exact Nat.and_two_pow_sub_one_eq_mod _ 8
  case isFalse => rfl

theorem toNat_shiftLeft : (shiftLeft a b).toNat = wrap (b.toNat * (2 ^ a.toNat : Nat)) := by
  rw [shiftLeft_eq, BitVec.toNat_shiftLeft, Nat.shiftLeft_eq, ← wrap_natCast, Int.natCast_mul]

theorem toNat_shiftRight : (shiftRight a b).toNat = b.toNat / 2 ^ a.toNat := by
  rw [shiftRight_eq, BitVec.toNat_ushiftRight, Nat.shiftRight_eq_div_pow]

theorem toNat_shiftRightSigned :
    (shiftRightSigned a b).toNat = wrap (signed 256 b.toNat / (2 ^ a.toNat : Nat)) := by
  rw [shiftRightSigned_eq, ← wrap_toInt, BitVec.toInt_sshiftRight, Int.shiftRight_eq_div_pow,
    signed_toNat_self]

end

theorem result_of_compute {op : Opcode} {words : List Word} {w : Word}
    (h : Machine.compute op words = some w) : result op (words.map (·.toNat)) = some w.toNat := by
  simp only [Machine.compute] at h
  split at h
  all_goals cases h
  all_goals refine congrArg some (Eq.symm ?_)
  case h_1 a b => exact toNat_add a b
  case h_2 a b => exact toNat_mul a b
  case h_3 a b => exact toNat_sub a b
  case h_4 a b => exact toNat_divide a b
  case h_5 a b => exact toNat_signedDivide a b
  case h_6 a b => exact toNat_remainder a b
  case h_7 a b => exact toNat_signedRemainder a b
  case h_8 a b n => exact toNat_addMod a b n
  case h_9 a b n => exact toNat_mulMod a b n
  case h_10 a b => exact BitVec.toNat_ofNat ..
  case h_11 a b => exact toNat_extendSign a b
  case h_12 a b => exact toNat_flag (decide_eq_true_iff.trans BitVec.lt_def)
  case h_13 a b => exact toNat_flag (decide_eq_true_iff.trans BitVec.lt_def)
  case h_14 a b => exact toNat_flag slt_iff
  case h_15 a b => exact toNat_flag slt_iff
  case h_16 a b => exact toNat_flag (decide_eq_true_iff.trans BitVec.toNat_inj.symm)
  case h_17 a => exact toNat_flag (decide_eq_true_iff.trans toNat_eq_zero_iff.symm)
  case h_18 a b => exact BitVec.toNat_and ..
  case h_19 a b => exact BitVec.toNat_or ..
  case h_20 a b => exact BitVec.toNat_xor ..
  case h_21 a => exact BitVec.toNat_not
  case h_22 a b => exact toNat_byteAt a b
  case h_23 a b => exact toNat_shiftLeft a b
  case h_24 a b => exact toNat_shiftRight a b
  case h_25 a b => exact toNat_shiftRightSigned a b

end Arithmetic

namespace Fold

theorem isSome_binary {f : Word → Word → Word} {a b : Option Word} (ha : a.isSome) (hb : b.isSome) :
    (binary f a b).isSome := by
  obtain ⟨x, rfl⟩ := Option.isSome_iff_exists.mp ha
  obtain ⟨y, rfl⟩ := Option.isSome_iff_exists.mp hb
  rfl

theorem isSome_shortcut {settled : Bool} {result : Word} {otherwise : Option Word}
    (h : otherwise.isSome) : (shortcut settled result otherwise).isSome := by
  cases settled
  case false => exact h
  case true => rfl

theorem exists_exponential {base exponent : Option Word} (hb : base.isSome) (he : exponent.isSome) :
    ∃ w, exponential base exponent = .ok w ∧ w.isSome := by
  obtain ⟨b, rfl⟩ := Option.isSome_iff_exists.mp hb
  obtain ⟨e, rfl⟩ := Option.isSome_iff_exists.mp he
  by_cases hz : e = 0
  case pos => exact ⟨some 1, by simp [exponential, hz], rfl⟩
  case neg => exact ⟨_, by rw [exponential, if_neg hz, if_pos (size_range hz)], rfl⟩

theorem exists_word? {op : Opcode} {arg : Nat → Option Word} (h : op.isFolded)
    (ha : ∀ i < op.inputs, (arg i).isSome) : ∃ w, word? op arg = .ok w ∧ w.isSome := by
  cases op with
  | iszero | not => exact ⟨_, rfl, (Option.isSome_map ..).trans (ha 0 (by decide))⟩
  | add | mul | sub | signextend | lt | gt | slt | sgt | eq | and | or | xor | sar =>
    exact ⟨_, rfl, isSome_binary (ha 0 (by decide)) (ha 1 (by decide))⟩
  | div | sdiv | mod | smod | byte | shl | shr =>
    exact ⟨_, rfl, isSome_shortcut (isSome_binary (ha 0 (by decide)) (ha 1 (by decide)))⟩
  | addmod | mulmod =>
    have ⟨n, hn⟩ := Option.isSome_iff_exists.mp (ha 2 (by decide))
    refine ⟨_, rfl, isSome_shortcut ?_⟩
    rw [hn]
    exact isSome_binary (ha 0 (by decide)) (ha 1 (by decide))
  | exp => exact exists_exponential (ha 0 (by decide)) (ha 1 (by decide))
  | _ => simp [Opcode.isFolded] at h

-- Folding never fails, and what it makes of the operands that are known holds of all words that the
-- others may be.
theorem folds_exactly {op : Opcode} {inputs : List Value} {words : List Word}
    (arity : inputs.length = op.inputs)
    (assigned : List.Forall₂ (fun v w => ∀ c, v.word? = some c → c = w) inputs words) :
    ∃ v, evaluate op inputs = .ok v ∧
      (∀ w, v.word? = some w →
        Arithmetic.result op (words.map (·.toNat)) = some w.toNat) ∧
      (op.isFolded → (∀ i ∈ inputs, i.isConstant) → v.isConstant) ∧
      v.origin? = none ∧ v.duplicated = false := by
  have harg (i : Nat) (w : Word) (h : inputs[i]?.bind Value.word? = some w) :
      words[i]? = some w := by
    have ⟨v, hv, hw⟩ := Option.bind_eq_some_iff.mp h
    have ⟨w', hw', hagree⟩ := forall₂_getElem? assigned hv
    exact hagree w hw ▸ hw'
  cases h : word? op fun i => inputs[i]?.bind Value.word? with
  | error e => exact absurd h (word?_ne_error op _ e)
  | ok word =>
    refine ⟨.ofOption word, by rw [evaluate, h]; rfl, fun w hw => ?_, fun hop hconst => ?_, ?_, ?_⟩
    · obtain rfl : word = some w := by simpa using hw
      have hlength := assigned.length_eq.symm.trans arity
      exact Arithmetic.result_of_compute (Machine.compute_of_word? harg h hlength)
    · have hall : ∀ i < op.inputs, (inputs[i]?.bind Value.word?).isSome := by
        intro i hi
        have hi : i < inputs.length := arity ▸ hi
        rw [List.getElem?_eq_getElem hi]
        exact hconst _ (List.getElem_mem hi)
      obtain ⟨w, hw, hsome⟩ := exists_word? hop hall
      cases h.symm.trans hw
      simpa [Value.isConstant] using hsome
    · exact Value.origin?_ofOption word
    · exact Value.duplicated_ofOption word

theorem folds_exactly_leastWord :
    (∃ v w, evaluate .sdiv [.pushed 0 (.intMin 256), .constant (.allOnes 256)] = .ok v ∧
      v.word? = some w ∧ v.origin? = none ∧ w.toNat = 2 ^ 255) ∧
    ∃ v w, evaluate .shl [.constant 256, .unknown] = .ok v ∧ v.word? = some w ∧
      Arithmetic.result .shl [256, 7] = some w.toNat := by
  constructor
  case left =>
    obtain ⟨v, hv, hresult, hconst, horigin, -⟩ := @folds_exactly .sdiv
      [.pushed 0 (.intMin 256), .constant (.allOnes 256)] [.intMin 256, .allOnes 256] rfl (by simp)
    obtain ⟨w, hw⟩ := Option.isSome_iff_exists.mp (hconst rfl (by simp [Value.isConstant]))
    have hleast : Arithmetic.result .sdiv [(BitVec.intMin 256).toNat, (BitVec.allOnes 256).toNat] =
        some (2 ^ 255) := by
      decide +kernel
    exact ⟨v, w, hv, hw, horigin, Option.some.inj ((hresult w hw).symm.trans hleast)⟩
  case right =>
    obtain ⟨v, hv, hresult, -⟩ := @folds_exactly .shl [.constant 256, .unknown] [256, 7] rfl
      (by simp)
    cases hv
    exact ⟨_, 0, rfl, rfl, hresult 0 rfl⟩

end Fold

end Splice
