import Splice.Program
import Splice.Site

namespace Splice

-- What an instruction reveals about the operand of the site it belongs to.
inductive Observation
  | jump (pc : Nat) (origin : Origin) (destination : Option Nat)
  | copy (pc : Nat) (source : CopySource)
  deriving DecidableEq

structure Stats where
  steps : Nat
  forksAttempted : Nat
  forksSkipped : Nat
  maxDepth : Nat
  deriving DecidableEq

def Stats.zero : Stats where
  steps := 0
  forksAttempted := 0
  forksSkipped := 0
  maxDepth := 0

structure Analysis where
  jumps : List JumpSite
  copies : List CopySite
  stats : Stats
  deriving DecidableEq

namespace Analysis

def blank (p : Program) : Analysis where
  jumps := (p.instructions.filter (·.op.isJump)).map fun ins => .fresh ins.pc ins.op
  copies := (p.instructions.filter (·.op = .codecopy)).map fun ins => .fresh ins.pc
  stats := .zero

def record (a : Analysis) : Observation → Analysis
  | .jump pc origin destination =>
    { a with jumps := a.jumps.map fun s => if s.pc = pc then s.record origin destination else s }
  | .copy pc source =>
    { a with copies := a.copies.map fun s => if s.pc = pc then s.record source else s }

@[simp]
theorem stats_record (a : Analysis) (o : Observation) : (a.record o).stats = a.stats := by
  cases o <;> rfl

end Analysis

end Splice
