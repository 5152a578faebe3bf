import Splice.Proofs.Pursuit

namespace Splice.Exploration

structure Waiting where
  ins : Instruction
  index : Nat
  stack : Stack

-- Where an exploration stands: the branch that it follows, and the branches that wait for it, the
-- innermost first.
structure Moment where
  stack : Stack
  position : Position
  waiting : List Waiting
  session : Session

inductive Turn
  | next (m : Moment)
  | done (outcome : Except Error Session)

namespace Moment

def start (p : Program) : Moment where
  stack := .empty
  position := .start
  waiting := []
  session := (Session.start p).enter 0

def act (p : Program) (ins : Instruction) (index : Nat) (stack : Stack) (waiting : List Waiting)
    (t : Session) : Turn :=
  match Step.step p ins index stack with
  | .error e => .done (.error e)
  | .ok (stack, position, seen) => .next ⟨stack, position, waiting, (t.observe seen).countStep⟩

-- A branch is done. The one that waits for it falls through its jump, whatever is left of the
-- budget.
def resume (p : Program) (waiting : List Waiting) (t : Session) : Turn :=
  match waiting with
  | [] => .done (.ok t)
  | w :: waiting =>
    act p w.ins w.index (w.stack.set 1 (.constant 0)) waiting (t.finish (key w.ins w.stack))

def turn (policy : Policy) (p : Program) (m : Moment) : Turn :=
  match m.position with
  | .halted => resume p m.waiting m.session
  | .running index =>
    match p.get? index with
    | none => resume p m.waiting m.session
    | some ins =>
      if policy.maxSteps ≤ m.session.stats.steps then
        .done (.error (.stepLimit policy.maxSteps))
      else if ins.Forks m.stack then
        if m.waiting.length < policy.maxForkDepth ∧
            ¬(policy.remembers ∧ key ins m.stack ∈ m.session.attempted) then
          .next {
            stack := m.stack.set 1 (.constant 1)
            position := .running index
            waiting := ⟨ins, index, m.stack⟩ :: m.waiting
            session := m.session.countFork.enter (m.waiting.length + 1) }
        else
          act p ins index (m.stack.set 1 (.constant 0)) m.waiting m.session.countSkip
      else
        act p ins index m.stack m.waiting m.session

end Moment

inductive Ends (policy : Policy) (p : Program) : Turn → Except Error Session → Prop
  | done {outcome} : Ends policy p (.done outcome) outcome
  | next {m outcome} (rest : Ends policy p (m.turn policy p) outcome) :
    Ends policy p (.next m) outcome

open Moment

variable {policy : Policy} {p : Program}

def Over (p : Program) (position : Position) : Prop :=
  ∀ i, position = .running i → p.get? i = none

theorem over_halted : Over p .halted := by
  simp [Over]

theorem over_off {i : Nat} (get : p.get? i = none) : Over p (.running i) := by
  simpa [Over] using get

def close (p : Program) (waiting : List Waiting) : Except Error Session → Turn
  | .error e => .done (.error e)
  | .ok t => resume p waiting t

section

variable {i : Nat} {s : Stack} {t : Session} {ins : Instruction} {waiting : List Waiting}

theorem turn_over {position : Position} (ended : Over p position) :
    turn policy p ⟨s, position, waiting, t⟩ = resume p waiting t := by
  cases position with
  | halted => rfl
  | running i => simp only [turn, ended i rfl]

theorem turn_spent (get : p.get? i = some ins) (spent : policy.maxSteps ≤ t.stats.steps) :
    turn policy p ⟨s, .running i, waiting, t⟩ = .done (.error (.stepLimit policy.maxSteps)) := by
  simp only [turn, get, if_pos spent]

section

variable (get : p.get? i = some ins) (left : ¬policy.maxSteps ≤ t.stats.steps)

include get left

theorem turn_settled (settled : ¬ins.Forks s) :
    turn policy p ⟨s, .running i, waiting, t⟩ = act p ins i s waiting t := by
  simp only [turn, get, if_neg left, if_neg settled]

theorem turn_take (forks : ins.Forks s) (room : waiting.length < policy.maxForkDepth)
    (new : ¬(policy.remembers ∧ key ins s ∈ t.attempted)) :
    turn policy p ⟨s, .running i, waiting, t⟩ =
      .next ⟨s.set 1 (.constant 1), .running i, ⟨ins, i, s⟩ :: waiting,
        t.countFork.enter (waiting.length + 1)⟩ := by
  simp only [turn, get, if_neg left, if_pos forks, if_pos (And.intro room new)]

theorem turn_skip (forks : ins.Forks s)
    (skip : ¬(waiting.length < policy.maxForkDepth ∧
      ¬(policy.remembers ∧ key ins s ∈ t.attempted))) :
    turn policy p ⟨s, .running i, waiting, t⟩ =
      act p ins i (s.set 1 (.constant 0)) waiting t.countSkip := by
  simp only [turn, get, if_neg left, if_pos forks, if_neg skip]

end

end

def Task.asTurn (policy : Policy) (p : Program) (waiting : List Waiting) (s : Stack) (t : Session) :
    Task → Turn
  | goOn position => Moment.turn policy p ⟨s, position, waiting, t⟩
  | execute ins i => act p ins i s waiting t

theorem ends_of_pursues {depth : Nat} {task : Task} {s : Stack} {t : Session}
    {outcome result : Except Error Session} (h : Pursues policy p depth task s t outcome)
    (waiting : List Waiting) (hdepth : waiting.length = depth)
    (hend : Ends policy p (close p waiting outcome) result) :
    Ends policy p (task.asTurn policy p waiting s t) result := by
  induction h generalizing waiting with
  | halted => rwa [Task.asTurn, turn_over over_halted]
  | off get => rwa [Task.asTurn, turn_over (over_off get)]
  | spent get spent => rwa [Task.asTurn, turn_spent get spent]
  | settled get left settled _ ih =>
    rw [Task.asTurn, turn_settled get left settled]
    exact ih waiting hdepth hend
  | skipped get left forks skip _ ih =>
    rw [← hdepth] at skip
    have skip := not_and_or.mpr (skip.imp Nat.not_lt.mpr not_not.mpr)
    rw [Task.asTurn, turn_skip get left forks skip]
    exact ih waiting hdepth hend
  | @lost depth i ins s t e get left forks new _ ih =>
    obtain ⟨room, new⟩ := not_or.mp new
    rw [Task.asTurn, turn_take get left forks (by omega) new, hdepth]
    exact .next (ih (⟨ins, i, s⟩ :: waiting) (congrArg (· + 1) hdepth) hend)
  | @explored depth i ins s t t' outcome get left forks new _ _ iht ihr =>
    obtain ⟨room, new⟩ := not_or.mp new
    rw [Task.asTurn, turn_take get left forks (by omega) new, hdepth]
    exact .next (iht (⟨ins, i, s⟩ :: waiting) (congrArg (· + 1) hdepth) (ihr waiting hdepth hend))
  | failed step =>
    simp only [Task.asTurn, act, step]
    exact hend
  | executed step _ ih =>
    simp only [Task.asTurn, act, step]
    exact .next (ih waiting hdepth hend)

theorem ends_start :
    Ends policy p ((start p).turn policy p)
      (explore policy p policy.maxForkDepth .empty .start (.start p)) := by
  have h : Pursues policy p 0 (.goOn .start) .empty ((Session.start p).enter 0)
      (explore policy p policy.maxForkDepth .empty .start (.start p)) :=
    pursues_explore (Nat.zero_add _)
  refine ends_of_pursues h [] rfl ?_
  cases explore policy p policy.maxForkDepth .empty .start (.start p) <;> exact .done

theorem Ends.unique {u : Turn} {outcome outcome' : Except Error Session}
    (h : Ends policy p u outcome) (h' : Ends policy p u outcome') : outcome = outcome' := by
  induction h with
  | done =>
    cases h'
    rfl
  | next _ ih =>
    cases h' with
    | next rest => exact ih rest

inductive Proceeds (policy : Policy) (p : Program) : Moment → Moment → Prop
  | step {s i ins waiting t s' position seen} (get : p.get? i = some ins)
      (left : t.stats.steps < policy.maxSteps) (settled : ¬ins.Forks s)
      (step : Step.step p ins i s = .ok (s', position, seen)) :
    Proceeds policy p ⟨s, .running i, waiting, t⟩
      ⟨s', position, waiting, (t.observe seen).countStep⟩
  | skip {s i ins waiting t s' position seen} (get : p.get? i = some ins)
      (left : t.stats.steps < policy.maxSteps) (forks : ins.Forks s)
      (skip : ¬(waiting.length < policy.maxForkDepth ∧
        ¬(policy.remembers ∧ key ins s ∈ t.attempted)))
      (step : Step.step p ins i (s.set 1 (.constant 0)) = .ok (s', position, seen)) :
    Proceeds policy p ⟨s, .running i, waiting, t⟩
      ⟨s', position, waiting, (t.countSkip.observe seen).countStep⟩
  | take {s i ins waiting t} (get : p.get? i = some ins)
      (left : t.stats.steps < policy.maxSteps) (forks : ins.Forks s)
      (room : waiting.length < policy.maxForkDepth)
      (new : ¬(policy.remembers ∧ key ins s ∈ t.attempted)) :
    Proceeds policy p ⟨s, .running i, waiting, t⟩
      ⟨s.set 1 (.constant 1), .running i, ⟨ins, i, s⟩ :: waiting,
        t.countFork.enter (waiting.length + 1)⟩
  | resume {s position w waiting t s' position' seen}
      (ended : Over p position)
      (step : Step.step p w.ins w.index (w.stack.set 1 (.constant 0)) =
        .ok (s', position', seen)) :
    Proceeds policy p ⟨s, position, w :: waiting, t⟩
      ⟨s', position', waiting, ((t.finish (key w.ins w.stack)).observe seen).countStep⟩

theorem act_eq_next_iff {ins : Instruction} {i : Nat} {s : Stack} {waiting : List Waiting}
    {t : Session} {m : Moment} :
    act p ins i s waiting t = .next m ↔ ∃ s' position seen,
      Step.step p ins i s = .ok (s', position, seen) ∧
        m = ⟨s', position, waiting, (t.observe seen).countStep⟩ := by
  rw [act]
  cases Step.step p ins i s with
  | error e => simp
  | ok result =>
    obtain ⟨s', position, seen⟩ := result
    simp [eq_comm]

theorem proceeds_of_resume {s : Stack} {position : Position} {waiting : List Waiting} {t : Session}
    {m : Moment} (ended : Over p position)
    (h : resume p waiting t = .next m) : Proceeds policy p ⟨s, position, waiting, t⟩ m := by
  cases waiting with
  | nil => cases h
  | cons w waiting =>
    obtain ⟨s', position', seen, step, rfl⟩ := act_eq_next_iff.mp h
    exact .resume ended step

theorem proceeds_of_turn {m m' : Moment} (h : m.turn policy p = .next m') :
    Proceeds policy p m m' := by
  obtain ⟨s, position, waiting, t⟩ := m
  simp only [turn] at h
  split at h
  case h_1 => exact proceeds_of_resume over_halted h
  case h_2 i =>
    split at h
    case h_1 get => exact proceeds_of_resume (over_off get) h
    case h_2 ins get =>
      split at h
      case isTrue => cases h
      case isFalse left =>
        have left := Nat.not_le.mp left
        split at h
        case isTrue forks =>
          split at h
          case isTrue new =>
            cases h
            exact .take get left forks new.1 new.2
          case isFalse skip =>
            obtain ⟨s', position, seen, step, rfl⟩ := act_eq_next_iff.mp h
            exact .skip get left forks skip step
        case isFalse settled =>
          obtain ⟨s', position, seen, step, rfl⟩ := act_eq_next_iff.mp h
          exact .step get left settled step

def Leads (policy : Policy) (p : Program) (m m' : Moment) : Prop :=
  m.turn policy p = .next m'

def Passes (policy : Policy) (p : Program) : Moment → Prop :=
  Relation.ReflTransGen (Leads policy p) (start p)

theorem Ends.exists_leads {m : Moment} {outcome : Except Error Session}
    (h : Ends policy p (m.turn policy p) outcome) :
    ∃ m', Relation.ReflTransGen (Leads policy p) m m' ∧ m'.turn policy p = .done outcome := by
  generalize hu : m.turn policy p = u at h
  induction h generalizing m with
  | done => exact ⟨m, .refl, hu⟩
  | next _ ih =>
    have ⟨m', hleads, hdone⟩ := ih rfl
    exact ⟨m', .head hu hleads, hdone⟩

theorem ends_of_leads {m m' : Moment} (h : Relation.ReflTransGen (Leads policy p) m m')
    {outcome : Except Error Session} (hm : Ends policy p (m'.turn policy p) outcome) :
    Ends policy p (m.turn policy p) outcome := by
  induction h using Relation.ReflTransGen.head_induction_on with
  | refl => exact hm
  | head hlead _ ih => exact hlead ▸ .next ih

theorem run_eq_iff {r : Except Error Analysis} :
    run policy p = r ↔ ∃ m outcome, Passes policy p m ∧ m.turn policy p = .done outcome ∧
      outcome.map (·.analysis) = r := by
  constructor
  case mp =>
    rintro rfl
    have ⟨m, hm, hdone⟩ := (@ends_start policy p).exists_leads
    exact ⟨m, _, hm, hdone, rfl⟩
  case mpr =>
    rintro ⟨m, outcome, hm, hdone, rfl⟩
    have hend : Ends policy p (m.turn policy p) outcome := hdone ▸ .done
    rw [run, ends_start.unique (ends_of_leads hm hend)]

end Splice.Exploration
