import Splice.Hex
import Splice.Opcode

namespace Splice

structure Instruction where
  pc : Nat
  op : Opcode
  imm : Option (List UInt8)
  deriving DecidableEq

namespace Instruction

def size (ins : Instruction) : Nat :=
  1 + (ins.imm.getD []).length

def isTruncated (ins : Instruction) : Bool :=
  (ins.imm.getD []).length ≠ ins.op.width

-- The immediate at its full width: code reads as zero behind its end.
def immediate (ins : Instruction) : List UInt8 :=
  let given := (ins.imm.getD []).take ins.op.width
  given ++ List.replicate (ins.op.width - given.length) 0

def value (ins : Instruction) : Nat :=
  BigEndian.value ins.immediate

def offset? (ins : Instruction) : Option Nat :=
  (BigEndian.offset? ins.immediate).map (·.toNat)

def listing (ins : Instruction) : String :=
  let head := Numeral.hexPadded 6 ins.pc ++ "  "
  match ins.imm with
  | none => head ++ ins.op.name
  | some bytes => head ++ Numeral.padRight 8 ' ' ins.op.name ++ " " ++ Hex.encode bytes

@[simp]
theorem length_immediate (ins : Instruction) : ins.immediate.length = ins.op.width := by
  simp only [immediate, List.length_append, List.length_replicate, List.length_take]
  omega

theorem offset?_eq_some_iff {ins : Instruction} {n : Nat} :
    ins.offset? = some n ↔ ins.value < BigEndian.bound 8 ∧ ins.value = n := by
  rw [offset?, BigEndian.map_toNat_offset?, Option.ite_none_right_eq_some, Option.some.injEq]
  rfl

theorem immediate_of_not_isTruncated {ins : Instruction} (h : ins.isTruncated = false) :
    ins.immediate = ins.imm.getD [] := by
  simp only [isTruncated, ne_eq, decide_not, Bool.not_eq_false', decide_eq_true_eq] at h
  simp [immediate, ← h]

end Instruction
end Splice
