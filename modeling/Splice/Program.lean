import Splice.Instruction

namespace Splice

structure Program where
  instructions : List Instruction
  deriving DecidableEq

namespace Program

-- Reads the code left to right from the offset `pc` on. The bytes of an immediate are never read as
-- instructions; at the end of the code an immediate has as many bytes as there are left.
def decodeFrom (pc : Nat) : List UInt8 → List Instruction
  | [] => []
  | b :: rest =>
    let op := Opcode.ofByte b
    let imm := if op.width = 0 then none else some (rest.take op.width)
    { pc, op, imm } :: decodeFrom (pc + 1 + op.width) (rest.drop op.width)
termination_by code => code.length
decreasing_by simp only [List.length_drop, List.length_cons]; omega

def decode (code : List UInt8) : Program where
  instructions := decodeFrom 0 code

def size (p : Program) : Nat :=
  p.instructions.length

def isEmpty (p : Program) : Bool :=
  p.instructions.isEmpty

def pcs (p : Program) (select : Opcode → Bool) : List Nat :=
  (p.instructions.filter (select ·.op)).map (·.pc)

def pushes (p : Program) : List Nat :=
  p.pcs (·.isPush)

def jumps (p : Program) : List Nat :=
  p.pcs (·.isJump)

def jumpdests (p : Program) : List Nat :=
  p.pcs (· = .jumpdest)

-- An index counts instructions, a pc counts bytes. No index belongs to a pc inside an immediate.
def indexOf? (p : Program) (pc : Nat) : Option Nat :=
  p.instructions.findIdx? (·.pc = pc)

def atPc? (p : Program) (pc : Nat) : Option Instruction :=
  p.instructions.find? (·.pc = pc)

def get? (p : Program) (index : Nat) : Option Instruction :=
  p.instructions[index]?

def before? (p : Program) : (index : Nat) → Option Instruction
  | 0 => none
  | index + 1 => p.get? index

def isJumpdest (p : Program) (pc : Nat) : Bool :=
  (p.atPc? pc).any (·.op = .jumpdest)

@[simp]
theorem decodeFrom_nil (pc : Nat) : decodeFrom pc [] = [] := by
  simp [decodeFrom]

theorem decodeFrom_cons (pc : Nat) (b : UInt8) (rest : List UInt8) :
    decodeFrom pc (b :: rest) =
      { pc, op := .ofByte b,
        imm := if (Opcode.ofByte b).width = 0 then none
          else some (rest.take (Opcode.ofByte b).width) } ::
        decodeFrom (pc + 1 + (Opcode.ofByte b).width) (rest.drop (Opcode.ofByte b).width) := by
  rw [decodeFrom]

end Program
end Splice
