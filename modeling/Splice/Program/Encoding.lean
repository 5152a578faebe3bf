import Splice.Program

namespace Splice.Program

-- The bytes of one instruction. A push may lack a part of its immediate if it is the last one,
-- because that is how a cut-off push is decoded.
def encodeInstruction (ins : Instruction) (last : Bool) : Except ImmediateFault (List UInt8) :=
  match ins.imm with
  | none =>
    if ins.op.width = 0 then .ok [ins.op.toByte] else .error (.missing ins.op.width ins.pc)
  | some imm =>
    if ins.op.width = 0 then .error (.unexpected ins.op ins.pc imm.length)
    else if ins.op.width < imm.length ∨ (imm.length < ins.op.width ∧ !last) then
      .error (.wrongSize ins.op.width imm.length ins.pc)
    else .ok (ins.op.toByte :: imm)

def encodeAll : List Instruction → Except ImmediateFault (List UInt8)
  | [] => .ok []
  | ins :: rest => do
    let bytes ← encodeInstruction ins rest.isEmpty
    return bytes ++ (← encodeAll rest)

def encode (instructions : List Instruction) : Except Error (List UInt8) :=
  (encodeAll instructions).mapError .immediate

end Splice.Program
