import Splice.Proofs.Guarded.Exploration

namespace Splice.Exploration

-- What there is to do in a branch: to go on at a position, or to execute an instruction whose fork,
-- if it has one, is done with.
inductive Task
  | goOn (position : Position)
  | execute (ins : Instruction) (index : Nat)

-- What comes of a branch at any depth, rule by rule, as its rounds and forks come. Nothing counts
-- down to an end: a branch that went on for ever would come to nothing.
inductive Pursues (policy : Policy) (p : Program) :
    (depth : Nat) → Task → Stack → Session → Except Error Session → Prop
  | halted {depth s t} : Pursues policy p depth (.goOn .halted) s t (.ok t)
  | off {depth i s t} (get : p.get? i = none) :
    Pursues policy p depth (.goOn (.running i)) s t (.ok t)
  | spent {depth i ins s t} (get : p.get? i = some ins)
      (spent : policy.maxSteps ≤ t.stats.steps) :
    Pursues policy p depth (.goOn (.running i)) s t (.error (.stepLimit policy.maxSteps))
  | settled {depth i ins s t outcome} (get : p.get? i = some ins)
      (left : ¬policy.maxSteps ≤ t.stats.steps) (settled : ¬ins.Forks s)
      (rest : Pursues policy p depth (.execute ins i) s t outcome) :
    Pursues policy p depth (.goOn (.running i)) s t outcome
  | skipped {depth i ins s t outcome} (get : p.get? i = some ins)
      (left : ¬policy.maxSteps ≤ t.stats.steps) (forks : ins.Forks s)
      (skip : policy.maxForkDepth ≤ depth ∨ policy.remembers ∧ key ins s ∈ t.attempted)
      (rest : Pursues policy p depth (.execute ins i) (s.set 1 (.constant 0)) t.countSkip outcome) :
    Pursues policy p depth (.goOn (.running i)) s t outcome
  | lost {depth i ins s t e} (get : p.get? i = some ins)
      (left : ¬policy.maxSteps ≤ t.stats.steps) (forks : ins.Forks s)
      (new : ¬(policy.maxForkDepth ≤ depth ∨ policy.remembers ∧ key ins s ∈ t.attempted))
      (taken : Pursues policy p (depth + 1) (.goOn (.running i)) (s.set 1 (.constant 1))
        (t.countFork.enter (depth + 1)) (.error e)) :
    Pursues policy p depth (.goOn (.running i)) s t (.error e)
  | explored {depth i ins s t t' outcome} (get : p.get? i = some ins)
      (left : ¬policy.maxSteps ≤ t.stats.steps) (forks : ins.Forks s)
      (new : ¬(policy.maxForkDepth ≤ depth ∨ policy.remembers ∧ key ins s ∈ t.attempted))
      (taken : Pursues policy p (depth + 1) (.goOn (.running i)) (s.set 1 (.constant 1))
        (t.countFork.enter (depth + 1)) (.ok t'))
      (rest : Pursues policy p depth (.execute ins i) (s.set 1 (.constant 0))
        (t'.finish (key ins s)) outcome) :
    Pursues policy p depth (.goOn (.running i)) s t outcome
  | failed {depth ins i s t e} (step : Step.step p ins i s = .error e) :
    Pursues policy p depth (.execute ins i) s t (.error e)
  | executed {depth ins i s t s' position seen outcome}
      (step : Step.step p ins i s = .ok (s', position, seen))
      (rest : Pursues policy p depth (.goOn position) s' (t.observe seen).countStep outcome) :
    Pursues policy p depth (.execute ins i) s t outcome

variable {policy : Policy} {p : Program}

theorem Pursues.unique {depth : Nat} {task : Task} {s : Stack} {t : Session}
    {outcome outcome' : Except Error Session} (h : Pursues policy p depth task s t outcome)
    (h' : Pursues policy p depth task s t outcome') : outcome = outcome' := by
  induction h generalizing outcome' with
  | halted | off | spent | settled | skipped | lost | explored | failed | executed =>
    cases h' <;> grind

def nested (policy : Policy) (p : Program) : (room : Nat) → Option Explorer
  | 0 => none
  | room + 1 => some (explore policy p room)

theorem explore_eq (room : Nat) (s : Stack) (position : Position) (t : Session) :
    explore policy p room s position t =
      walk policy p (nested policy p room) (policy.maxSteps - t.stats.steps) s position
        (t.enter (policy.maxForkDepth - room)) := by
  cases room <;> rw [explore, nested]

section

variable {depth room rounds i : Nat} {s : Stack} {t : Session} {ins : Instruction}

theorem walk_spent {deeper : Option Explorer} (get : p.get? i = some ins)
    (spent : policy.maxSteps ≤ t.stats.steps) :
    walk policy p deeper rounds s (.running i) t = .error (.stepLimit policy.maxSteps) := by
  cases rounds <;> simp [walk, get, spent]

theorem settled_eq {deeper : Option Explorer} (settled : ¬ins.Forks s) :
    (if ins.op = .jumpi then fork policy deeper ins.pc i s t else .ok (s, t)) = .ok (s, t) := by
  split
  case isTrue hop => exact fork_eq_of_not_undecided fun hu => settled ⟨hop, hu⟩
  case isFalse => rfl

theorem take_skip {depth : Nat} (hroom : policy.maxForkDepth - depth = room)
    (skip : policy.maxForkDepth ≤ depth ∨ policy.remembers ∧ key ins s ∈ t.attempted) :
    take policy (nested policy p room) (key ins s) i s t = .ok t.countSkip := by
  cases room with
  | zero => rfl
  | succ room => exact if_pos (skip.resolve_left (by omega))

theorem take_new (new : ¬(policy.remembers ∧ key ins s ∈ t.attempted)) :
    take policy (nested policy p (room + 1)) (key ins s) i s t =
      explore policy p room (s.set 1 (.constant 1)) (.running i) t.countFork >>= fun t' =>
        .ok (t'.finish (key ins s)) :=
  if_neg new

theorem steps_le_of_explore {position : Position} {t' : Session}
    (h : explore policy p room s position t = .ok t') : t.stats.steps ≤ t'.stats.steps := by
  have ⟨_, h⟩ := explores_of_explore h
  exact h.steps_le

theorem pursues_execute {deeper : Option Explorer}
    (further : ∀ s position t', t.stats.steps < t'.stats.steps →
      Pursues policy p depth (.goOn position) s t' (walk policy p deeper rounds s position t'))
    {t' : Session} (ht : t.stats.steps ≤ t'.stats.steps) :
    Pursues policy p depth (.execute ins i) s t'
      (Step.step p ins i s >>= fun (s, position, seen) =>
        walk policy p deeper rounds s position (t'.observe seen).countStep) := by
  cases hs : Step.step p ins i s with
  | error e => exact .failed hs
  | ok result =>
    refine .executed hs (further _ _ _ ?_)
    simpa using Nat.lt_succ_of_le ht

theorem pursues_round (hroom : policy.maxForkDepth - depth = room)
    (get : p.get? i = some ins) (left : ¬policy.maxSteps ≤ t.stats.steps)
    (deep : ∀ room', room = room' + 1 → ∀ s t,
      Pursues policy p (depth + 1) (.goOn (.running i)) s (t.enter (depth + 1))
        (explore policy p room' s (.running i) t))
    (further : ∀ s position t', t.stats.steps < t'.stats.steps →
      Pursues policy p depth (.goOn position) s t'
        (walk policy p (nested policy p room) rounds s position t')) :
    Pursues policy p depth (.goOn (.running i)) s t
      (walk policy p (nested policy p room) (rounds + 1) s (.running i) t) := by
  rw [walk_succ get left]
  by_cases forks : ins.Forks s
  case neg =>
    rw [settled_eq forks]
    exact .settled get left forks (pursues_execute further (Nat.le_refl _))
  case pos =>
    rw [if_pos forks.1, fork_eq_of_undecided forks.2, bind_assoc]
    by_cases skip : policy.maxForkDepth ≤ depth ∨ policy.remembers ∧ key ins s ∈ t.attempted
    case pos =>
      have htake : take policy (nested policy p room) ⟨ins.pc, s.depth, s.shape⟩ i s t =
          .ok t.countSkip := take_skip hroom skip
      rw [htake]
      exact .skipped get left forks skip (pursues_execute further (by simp))
    case neg =>
      obtain ⟨hdepth, new⟩ := not_or.mp skip
      obtain ⟨room, rfl⟩ : ∃ room', room = room' + 1 := Nat.exists_eq_add_one.mpr (by omega)
      have htaken := deep room rfl (s.set 1 (.constant 1)) t.countFork
      have htake : take policy (nested policy p (room + 1)) ⟨ins.pc, s.depth, s.shape⟩ i s t = _ :=
        take_new new
      rw [htake]
      cases he : explore policy p room (s.set 1 (.constant 1)) (.running i) t.countFork with
      | error e => exact .lost get left forks skip (he ▸ htaken)
      | ok t' =>
        have hle := steps_le_of_explore he
        rw [Session.steps_countFork] at hle
        exact .explored get left forks skip (he ▸ htaken) (pursues_execute further hle)

theorem pursues_idle {deeper : Option Explorer} {position : Position}
    (idle : ∀ i ins, position = .running i → p.get? i = some ins →
      policy.maxSteps ≤ t.stats.steps) :
    Pursues policy p depth (.goOn position) s t (walk policy p deeper rounds s position t) := by
  cases position with
  | halted => exact walk_halted ▸ .halted
  | running i =>
    cases get : p.get? i with
    | none => exact walk_off get ▸ .off get
    | some ins =>
      have spent := idle i ins rfl get
      exact walk_spent get spent ▸ .spent get spent

theorem pursues_walk {position : Position} (hroom : policy.maxForkDepth - depth = room)
    (hrounds : policy.maxSteps ≤ t.stats.steps + rounds)
    (deep : ∀ room', room = room' + 1 → ∀ i s t,
      Pursues policy p (depth + 1) (.goOn (.running i)) s (t.enter (depth + 1))
        (explore policy p room' s (.running i) t)) :
    Pursues policy p depth (.goOn position) s t
      (walk policy p (nested policy p room) rounds s position t) := by
  induction rounds generalizing s position t with
  | zero => exact pursues_idle fun _ _ _ _ => hrounds
  | succ rounds ih =>
    by_cases idle : ∀ i ins, position = .running i → p.get? i = some ins →
      policy.maxSteps ≤ t.stats.steps
    case pos => exact pursues_idle idle
    case neg =>
      simp only [not_forall] at idle
      obtain ⟨i, ins, rfl, get, left⟩ := idle
      exact pursues_round hroom get left (fun room' hr => deep room' hr i)
        fun s position t' ht => ih (by omega)

theorem pursues_of_room {position : Position} (hroom : policy.maxForkDepth - depth = room)
    (hrounds : policy.maxSteps ≤ t.stats.steps + rounds) :
    Pursues policy p depth (.goOn position) s t
      (walk policy p (nested policy p room) rounds s position t) := by
  induction room generalizing depth rounds s position t with
  | zero => exact pursues_walk hroom hrounds fun _ hr => nomatch hr
  | succ room ih =>
    refine pursues_walk hroom hrounds fun room' hr i s t => ?_
    cases hr
    have hdepth : policy.maxForkDepth - room = depth + 1 := by omega
    rw [explore_eq, hdepth]
    exact ih (by omega) (by simp; omega)

-- Exploring comes to what there is to come of a branch, so it changes nothing that `explore` counts
-- its rounds and its nesting down.
theorem pursues_explore {position : Position} (hroom : depth + room = policy.maxForkDepth) :
    Pursues policy p depth (.goOn position) s (t.enter depth)
      (explore policy p room s position t) := by
  have hdepth : policy.maxForkDepth - room = depth := by omega
  rw [explore_eq, hdepth]
  exact pursues_of_room (by omega) (by simp; omega)

end

end Splice.Exploration
