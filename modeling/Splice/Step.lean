import Splice.Abstract.Fold
import Splice.Abstract.Stack
import Splice.Analysis

namespace Splice

inductive Position
  | running (index : Nat)
  | halted
  deriving DecidableEq

def Position.start : Position :=
  running 0

namespace Step

-- A jump needs a target that a push supplied, so that there is an immediate to stand for it.
def pushedTarget (pc : Nat) (target : Value) : Except Error (Word × Origin) :=
  match target.known with
  | .unknown => .error (.nonConstantJump pc)
  | .computed _ => .error (.computedJump pc)
  | .pushed origin word => .ok (word, ⟨origin, target.duplicated, .traced⟩)

def destination? (p : Program) (word : Word) : Option (Nat × Nat) :=
  (word.offset?.filter p.isJumpdest).bind fun d => (p.indexOf? d).map (d, ·)

def jumpTo (p : Program) (pc : Nat) (target : Value) : Except Error (Nat × Observation) := do
  let (word, origin) ← pushedTarget pc target
  match destination? p word with
  | some (destination, index) => .ok (index, .jump pc origin (some destination))
  | none => .error (.invalidJump pc word)

def passBy (pc : Nat) (target : Value) : Except Error Observation := do
  let (_, origin) ← pushedTarget pc target
  return .jump pc origin none

def copySource (offset : Value) : CopySource :=
  match offset.known with
  | .unknown => .dynamic
  | .computed _ => .computed
  | .pushed origin _ => .pushed ⟨origin, offset.duplicated, .traced⟩

structure Effect where
  stack : Stack
  next : Nat
  seen : Option Observation

def execute (p : Program) (ins : Instruction) (index : Nat) (s : Stack) : Except Error Effect := do
  match ins.op with
  | .push0 =>
    let ((), s) ← (s.push (.pushed ins.pc 0)).settle
    return ⟨s, index + 1, none⟩
  | .push _ =>
    let ((), s) ← (s.push (← Value.ofImmediate ins.pc ins.immediate)).settle
    return ⟨s, index + 1, none⟩
  | .dup n =>
    let ((), s) ← (s.dup n).settle
    return ⟨s, index + 1, none⟩
  | .swap n =>
    let ((), s) ← (s.swap n).settle
    return ⟨s, index + 1, none⟩
  | .jumpdest => return ⟨s, index + 1, none⟩
  | .jump =>
    let (operands, s) ← (s.popMany ins.op 1).settle
    let (next, seen) ← jumpTo p ins.pc (operands.getD 0 .unknown)
    return ⟨s, next, some seen⟩
  | .jumpi =>
    let (operands, s) ← (s.popMany ins.op 2).settle
    let target := operands.getD 0 .unknown
    match (operands.getD 1 .unknown).word? with
    | none => .error (.undecidedCondition ins.pc)
    | some condition =>
      if condition = 0 then
        return ⟨s, index + 1, some (← passBy ins.pc target)⟩
      else
        let (next, seen) ← jumpTo p ins.pc target
        return ⟨s, next, some seen⟩
  | .codecopy =>
    let (operands, s) ← (s.popMany ins.op 3).settle
    return ⟨s, index + 1, some (.copy ins.pc (copySource (operands.getD 1 .unknown)))⟩
  | op =>
    let (operands, s) ← (s.popMany op op.inputs).settle
    if op.outputs = 1 then
      let ((), s) ← (s.push (← Fold.evaluate op operands)).settle
      return ⟨s, index + 1, none⟩
    else
      return ⟨s, index + 1, none⟩

-- Executes one instruction and compares what it did to the stack with what its operation declares.
def step (p : Program) (ins : Instruction) (index : Nat) (s : Stack) :
    Except Error (Stack × Position × Option Observation) := do
  let e ← execute p ins index s
  let realized : Int := e.stack.depth - s.depth
  if realized ≠ ins.op.delta then
    .error (.deltaMismatch ins.pc ins.op ins.op.delta realized)
  else if ins.op.isTerminal ∨ p.size ≤ e.next then
    return (e.stack, .halted, e.seen)
  else
    return (e.stack, .running e.next, e.seen)

end Step

end Splice
