import Splice.Step

namespace Splice

structure Policy where
  maxSteps : Nat
  maxForkDepth : Nat
  remembers : Bool

def Policy.standard : Policy where
  maxSteps := 10000
  maxForkDepth := 30
  remembers := true

namespace Exploration

-- A fork is told apart from others by its jump and by the shape of the stack there. The depth says
-- nothing that the shape does not, but it settles most comparisons at once.
structure Fork where
  pc : Nat
  depth : Nat
  shape : List Value.Shape
  deriving DecidableEq

structure Session where
  analysis : Analysis
  attempted : List Fork

namespace Session

def start (p : Program) : Session where
  analysis := .blank p
  attempted := []

def stats (s : Session) : Stats :=
  s.analysis.stats

def withStats (s : Session) (f : Stats → Stats) : Session :=
  { s with analysis := { s.analysis with stats := f s.analysis.stats } }

def enter (s : Session) (depth : Nat) : Session :=
  s.withStats fun t => { t with maxDepth := max t.maxDepth depth }

def countStep (s : Session) : Session :=
  s.withStats fun t => { t with steps := t.steps + 1 }

def countFork (s : Session) : Session :=
  s.withStats fun t => { t with forksAttempted := t.forksAttempted + 1 }

def countSkip (s : Session) : Session :=
  s.withStats fun t => { t with forksSkipped := t.forksSkipped + 1 }

def finish (s : Session) (key : Fork) : Session :=
  { s with attempted := key :: s.attempted }

def observe (s : Session) : Option Observation → Session
  | none => s
  | some o => { s with analysis := s.analysis.record o }

end Session

abbrev Explorer := Stack → Position → Session → Except Error Session

-- The taken side of a jump under an undecided condition is explored first, with the condition set
-- to one; behind it the branch falls through, with the condition set to zero. `deeper` is missing
-- where forks are nested as deep as they may be.
--
-- A fork is remembered only when its taken side is done. Arriving at it again from within that side
-- forks once more, so a routine that is called twice from there has both its returns followed.
def fork (policy : Policy) (deeper : Option Explorer) (pc index : Nat) (stack : Stack)
    (s : Session) : Except Error (Stack × Session) :=
  match stack.peek? 1 with
  | none => .ok (stack, s)
  | some condition =>
    if condition.isConstant then
      .ok (stack, s)
    else do
      let key : Fork := ⟨pc, stack.depth, stack.shape⟩
      let s ←
        match deeper with
        | none => .ok s.countSkip
        | some explore =>
          if policy.remembers ∧ key ∈ s.attempted then
            .ok s.countSkip
          else do
            let s ← explore (stack.set 1 (.constant 1)) (.running index) s.countFork
            .ok (s.finish key)
      return (stack.set 1 (.constant 0), s)

-- Follows one branch. Every round executes an instruction, so no branch has more rounds than there
-- are steps left, and with no rounds left the budget is spent. The budget is looked at before a
-- fork and not again behind it.
def walk (policy : Policy) (p : Program) (deeper : Option Explorer) : (rounds : Nat) → Explorer
  | _, _, .halted, s => .ok s
  | rounds, stack, .running index, s =>
    match p.get? index with
    | none => .ok s
    | some ins =>
      match rounds with
      | 0 => .error (.stepLimit policy.maxSteps)
      | rounds + 1 =>
        if policy.maxSteps ≤ s.stats.steps then
          .error (.stepLimit policy.maxSteps)
        else do
          let (stack, s) ←
            if ins.op = .jumpi then fork policy deeper ins.pc index stack s else .ok (stack, s)
          let (stack, position, seen) ← Step.step p ins index stack
          walk policy p deeper rounds stack position (s.observe seen).countStep

def explore (policy : Policy) (p : Program) : (room : Nat) → Explorer
  | room, stack, position, s =>
    let deeper :=
      match room with
      | 0 => none
      | room + 1 => some (explore policy p room)
    let rounds := policy.maxSteps - s.stats.steps
    walk policy p deeper rounds stack position (s.enter (policy.maxForkDepth - room))

def run (policy : Policy) (p : Program) : Except Error Analysis :=
  (explore policy p policy.maxForkDepth .empty .start (.start p)).map (·.analysis)

end Exploration

def analyze (p : Program) : Except Error Analysis :=
  Exploration.run .standard p

end Splice
