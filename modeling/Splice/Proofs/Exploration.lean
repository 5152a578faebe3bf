import Splice.Proofs.Branch

namespace Splice.Exploration

namespace Session

section

variable (s : Session)

@[simp]
theorem analysis_enter (depth : Nat) :
    (s.enter depth).analysis = s.analysis.withStats (s.enter depth).stats :=
  rfl

@[simp]
theorem analysis_countStep : s.countStep.analysis = s.analysis.withStats s.countStep.stats :=
  rfl

@[simp]
theorem analysis_countFork : s.countFork.analysis = s.analysis.withStats s.countFork.stats :=
  rfl

@[simp]
theorem analysis_countSkip : s.countSkip.analysis = s.analysis.withStats s.countSkip.stats :=
  rfl

@[simp]
theorem steps_enter (depth : Nat) : (s.enter depth).stats.steps = s.stats.steps :=
  rfl

@[simp]
theorem steps_countStep : s.countStep.stats.steps = s.stats.steps + 1 :=
  rfl

@[simp]
theorem steps_countFork : s.countFork.stats.steps = s.stats.steps :=
  rfl

@[simp]
theorem steps_countSkip : s.countSkip.stats.steps = s.stats.steps :=
  rfl

@[simp]
theorem forksAttempted_enter (depth : Nat) :
    (s.enter depth).stats.forksAttempted = s.stats.forksAttempted :=
  rfl

@[simp]
theorem forksAttempted_countStep : s.countStep.stats.forksAttempted = s.stats.forksAttempted :=
  rfl

@[simp]
theorem forksAttempted_countFork :
    s.countFork.stats.forksAttempted = s.stats.forksAttempted + 1 :=
  rfl

@[simp]
theorem forksAttempted_countSkip : s.countSkip.stats.forksAttempted = s.stats.forksAttempted :=
  rfl

@[simp]
theorem forksSkipped_enter (depth : Nat) :
    (s.enter depth).stats.forksSkipped = s.stats.forksSkipped :=
  rfl

@[simp]
theorem forksSkipped_countStep : s.countStep.stats.forksSkipped = s.stats.forksSkipped :=
  rfl

@[simp]
theorem forksSkipped_countFork : s.countFork.stats.forksSkipped = s.stats.forksSkipped :=
  rfl

@[simp]
theorem forksSkipped_countSkip : s.countSkip.stats.forksSkipped = s.stats.forksSkipped + 1 :=
  rfl

end

@[simp]
theorem analysis_finish (s : Session) (key : Fork) : (s.finish key).analysis = s.analysis :=
  rfl

@[simp]
theorem stats_finish (s : Session) (key : Fork) : (s.finish key).stats = s.stats :=
  rfl

@[simp]
theorem analysis_observe (s : Session) (seen : Option Observation) :
    (s.observe seen).analysis = s.analysis.recordAll seen.toList := by
  cases seen <;> rfl

@[simp]
theorem stats_observe (s : Session) (seen : Option Observation) :
    (s.observe seen).stats = s.stats := by
  cases seen <;> simp [observe, stats]

end Session

-- What becomes of a fork with room for it: its taken side is explored, or it is recalled from an
-- earlier arrival and only passed by. An event is noted when its taken side is done.
inductive Event
  | explored (fork : Branch)
  | recalled (fork : Branch)

def Event.fork : Event → Branch
  | explored fork | recalled fork => fork

def key (ins : Instruction) (s : Stack) : Fork :=
  ⟨ins.pc, s.depth, s.shape⟩

-- The exploration of a branch and of everything nested in it, with its forks in the order in which
-- they are done.
inductive Explores (policy : Policy) (p : Program) :
    Branch → Session → List Event → Session → Prop
  | halted {room s t} : Explores policy p ⟨room, s, .halted⟩ t [] t
  | off {room s i t} (get : p.get? i = none) : Explores policy p ⟨room, s, .running i⟩ t [] t
  | step {room s i ins s' position seen t log t'} (get : p.get? i = some ins)
      (settled : ¬ins.Forks s) (step : Step.step p ins i s = .ok (s', position, seen))
      (rest : Explores policy p ⟨room, s', position⟩ (t.observe seen).countStep log t') :
    Explores policy p ⟨room, s, .running i⟩ t log t'
  | capped {s i ins t log t'} (get : p.get? i = some ins) (forks : ins.Forks s)
      (rest : Explores policy p ⟨0, s.set 1 (.constant 0), .running i⟩ t.countSkip log t') :
    Explores policy p ⟨0, s, .running i⟩ t log t'
  | recalled {room s i ins t log t'} (get : p.get? i = some ins) (forks : ins.Forks s)
      (remembers : policy.remembers) (known : key ins s ∈ t.attempted)
      (rest : Explores policy p ⟨room + 1, s.set 1 (.constant 0), .running i⟩ t.countSkip log t') :
    Explores policy p ⟨room + 1, s, .running i⟩ t
      (.recalled ⟨room + 1, s, .running i⟩ :: log) t'
  | explored {room s i ins t log t₁ log' t'} (get : p.get? i = some ins) (forks : ins.Forks s)
      (new : ¬(policy.remembers ∧ key ins s ∈ t.attempted))
      (taken : Explores policy p ⟨room, s.set 1 (.constant 1), .running i⟩
        (t.countFork.enter (policy.maxForkDepth - room)) log t₁)
      (rest : Explores policy p ⟨room + 1, s.set 1 (.constant 0), .running i⟩
        (t₁.finish (key ins s)) log' t') :
    Explores policy p ⟨room + 1, s, .running i⟩ t
      (log ++ .explored ⟨room + 1, s, .running i⟩ :: log') t'

variable {policy : Policy} {p : Program}

def Nests (policy : Policy) (p : Program) : (room : Nat) → Option Explorer → Prop
  | 0, none => True
  | room + 1, some explore => ∀ s position t t', explore s position t = .ok t' →
    ∃ log, Explores policy p ⟨room, s, position⟩ (t.enter (policy.maxForkDepth - room)) log t'
  | _, _ => False

theorem fork_eq_of_not_undecided {deeper : Option Explorer} {pc i : Nat} {s : Stack} {t : Session}
    (h : ¬s.Undecided) : fork policy deeper pc i s t = .ok (s, t) := by
  simp only [fork]
  split
  case h_1 => rfl
  case h_2 v hv =>
    have hc : v.isConstant = true := by
      by_contra hc
      exact h ⟨v, hv, Bool.eq_false_iff.mpr hc⟩
    rw [if_pos hc]

theorem explores_of_fork {deeper : Option Explorer} {room i : Nat} {s s' : Stack} {t t' : Session}
    {ins : Instruction} (hd : Nests policy p room deeper) (get : p.get? i = some ins)
    (forks : ins.Forks s) (h : fork policy deeper ins.pc i s t = .ok (s', t')) :
    s' = s.set 1 (.constant 0) ∧ ∀ log t'', Explores policy p ⟨room, s', .running i⟩ t' log t'' →
      ∃ log, Explores policy p ⟨room, s, .running i⟩ t log t'' := by
  have ⟨v, hv, hc⟩ := forks.2
  simp only [fork, hv, hc, Bool.false_eq_true, ↓reduceIte] at h
  match room, deeper, hd with
  | 0, none, _ =>
    cases h
    exact ⟨rfl, fun log t'' rest => ⟨_, .capped get forks rest⟩⟩
  | room + 1, some explore, hd =>
    dsimp only at h
    split at h
    case isTrue hk =>
      cases h
      exact ⟨rfl, fun log t'' rest => ⟨_, .recalled get forks hk.1 hk.2 rest⟩⟩
    case isFalse hk =>
      have ⟨t₂, he, h⟩ := bind_eq_ok_iff.mp h
      cases h
      have ⟨log, taken⟩ := hd _ _ _ _ he
      exact ⟨rfl, fun log' t'' rest => ⟨_, .explored get forks hk taken rest⟩⟩

section

variable {deeper : Option Explorer} {rounds i : Nat} {s : Stack} {t t' : Session}

theorem walk_halted : walk policy p deeper rounds s .halted t = .ok t := by
  rw [walk]

theorem walk_off (get : p.get? i = none) :
    walk policy p deeper rounds s (.running i) t = .ok t := by
  cases rounds <;> simp [walk, get]

theorem walk_succ_eq_ok {ins : Instruction} (get : p.get? i = some ins)
    (h : walk policy p deeper (rounds + 1) s (.running i) t = .ok t') :
    ∃ s₁ t₁ s₂ position seen,
      (if ins.op = .jumpi then fork policy deeper ins.pc i s t else .ok (s, t)) = .ok (s₁, t₁) ∧
      Step.step p ins i s₁ = .ok (s₂, position, seen) ∧
      walk policy p deeper rounds s₂ position (t₁.observe seen).countStep = .ok t' := by
  simp only [walk, get] at h
  split at h
  case isTrue => simp at h
  case isFalse =>
    split at h
    all_goals
      have ⟨⟨s₁, t₁⟩, hf, h⟩ := bind_eq_ok_iff.mp h
      have ⟨⟨s₂, position, seen⟩, hs, h⟩ := bind_eq_ok_iff.mp h
      exact ⟨s₁, t₁, s₂, position, seen, by simp_all, hs, h⟩

end

theorem explores_of_walk (deeper : Option Explorer) (room : Nat)
    (hd : Nests policy p room deeper) {rounds : Nat} {s : Stack} {position : Position}
    {t t' : Session} (h : walk policy p deeper rounds s position t = .ok t') :
    ∃ log, Explores policy p ⟨room, s, position⟩ t log t' := by
  cases position with
  | halted =>
    cases walk_halted.symm.trans h
    exact ⟨_, .halted⟩
  | running i =>
    cases get : p.get? i with
    | none =>
      cases (walk_off get).symm.trans h
      exact ⟨_, .off get⟩
    | some ins =>
      match rounds with
      | 0 => simp [walk, get] at h
      | rounds + 1 =>
        have ⟨s₁, t₁, s₂, position, seen, hf, hs, h⟩ := walk_succ_eq_ok get h
        have ⟨log, rest⟩ := explores_of_walk deeper room hd h
        by_cases forks : ins.Forks s
        case pos =>
          rw [if_pos forks.1] at hf
          obtain ⟨rfl, go⟩ := explores_of_fork hd get forks hf
          exact go _ _ (.step get (Instruction.not_forks_set forks 0) hs rest)
        case neg =>
          obtain ⟨rfl, rfl⟩ : s = s₁ ∧ t = t₁ := by
            split at hf
            case isTrue hop =>
              simpa [fork_eq_of_not_undecided fun hu => forks ⟨hop, hu⟩] using hf
            case isFalse => simpa using hf
          exact ⟨_, .step get forks hs rest⟩

theorem explores_of_explore {room : Nat} {s : Stack} {position : Position} {t t' : Session}
    (h : explore policy p room s position t = .ok t') :
    ∃ log, Explores policy p ⟨room, s, position⟩ (t.enter (policy.maxForkDepth - room)) log t' := by
  induction room generalizing s position t t' with
  | zero =>
    rw [explore] at h
    exact explores_of_walk none 0 trivial h
  | succ room ih =>
    rw [explore] at h
    exact explores_of_walk (some _) (room + 1) (fun _ _ _ _ => ih) h

namespace Explores

open Branch

variable {b : Branch} {t t' : Session} {log : List Event}

theorem exists_recordAll (h : Explores policy p b t log t') :
    ∃ seen, t'.analysis = (t.analysis.recordAll seen).withStats t'.stats ∧
      ∀ o ∈ seen, Sees p b o := by
  induction h with
  | halted | off => exact ⟨[], rfl, by simp⟩
  | @step room s i ins s' position seen t log t' get settled step _ ih =>
    have ⟨seen', ha, hs⟩ := ih
    refine ⟨seen.toList ++ seen', by simpa [Analysis.recordAll_append] using ha, fun o ho => ?_⟩
    cases List.mem_append.mp ho
    case inl ho =>
      obtain rfl : seen = some o := by simpa using ho
      exact .now (.step get settled step)
    case inr ho => exact .later (.step get settled step) (hs o ho)
  | capped get forks _ ih | recalled get forks _ _ _ ih =>
    have ⟨seen, ha, hs⟩ := ih
    exact ⟨seen, by simpa using ha, fun o ho => .later (.pass get forks) (hs o ho)⟩
  | explored get forks _ _ _ iht ihr =>
    have ⟨seen, ha, hs⟩ := iht
    have ⟨seen', ha', hs'⟩ := ihr
    refine ⟨seen ++ seen', by simpa [Analysis.recordAll_append, ha] using ha', fun o ho => ?_⟩
    cases List.mem_append.mp ho
    case inl ho => exact .later (.take get forks) (hs o ho)
    case inr ho => exact .later (.pass get forks) (hs' o ho)

theorem steps_le (h : Explores policy p b t log t') : t.stats.steps ≤ t'.stats.steps := by
  induction h with
  | halted | off => exact Nat.le_refl _
  | step _ _ _ _ ih =>
    simp only [Session.steps_countStep, Session.stats_observe] at ih
    omega
  | capped _ _ _ ih | recalled _ _ _ _ _ ih => simpa using ih
  | explored _ _ _ _ _ iht ihr =>
    simp only [Session.steps_enter, Session.steps_countFork, Session.stats_finish] at iht ihr
    omega

theorem forksSkipped_le (h : Explores policy p b t log t') :
    t.stats.forksSkipped ≤ t'.stats.forksSkipped := by
  induction h with
  | halted | off => exact Nat.le_refl _
  | step _ _ _ _ ih => simpa using ih
  | capped _ _ _ ih | recalled _ _ _ _ _ ih =>
    simp only [Session.forksSkipped_countSkip] at ih
    omega
  | explored _ _ _ _ _ iht ihr =>
    simp only [Session.forksSkipped_enter, Session.forksSkipped_countFork,
      Session.stats_finish] at iht ihr
    omega

theorem knows (h : Explores policy p b t log t') {o : Observation} (ho : o.Traced)
    (hk : t.analysis.Knows o) : t'.analysis.Knows o := by
  have ⟨seen, ha, hs⟩ := h.exists_recordAll
  rw [ha, Analysis.knows_withStats]
  exact hk.recordAll ho fun _ h => (hs _ h).traced

theorem reaches (h : Explores policy p b t log t') {e : Event} (he : e ∈ log) :
    Reaches p b e.fork.taken := by
  induction h with
  | halted | off => simp at he
  | step get settled step _ ih => exact .head ⟨_, .step get settled step⟩ (ih he)
  | capped get forks _ ih => exact .head ⟨_, .pass get forks⟩ (ih he)
  | recalled get forks _ _ _ ih =>
    rcases List.mem_cons.mp he with rfl | he
    case inl => exact .head ⟨_, .take get forks⟩ .refl
    case inr => exact .head ⟨_, .pass get forks⟩ (ih he)
  | explored get forks _ _ _ iht ihr =>
    rcases List.mem_append.mp he with he | he
    case inl => exact .head ⟨_, .take get forks⟩ (iht he)
    rcases List.mem_cons.mp he with rfl | he
    case inl => exact .head ⟨_, .take get forks⟩ .refl
    case inr => exact .head ⟨_, .pass get forks⟩ (ihr he)

theorem not_capped (h : Explores policy p b t log t')
    (hs : t'.stats.forksSkipped = t.stats.forksSkipped) {b' : Branch} (hr : Reaches p b b') :
    ¬Capped p b' := by
  induction h with
  | halted =>
    rcases hr.cases_head with rfl | ⟨_, ⟨_, ⟨⟩⟩, _⟩
    rintro ⟨-, i, ins, ⟨⟩, -⟩
  | off get =>
    rcases hr.cases_head with rfl | ⟨_, ⟨_, move⟩, _⟩
    case inl =>
      rintro ⟨-, i, ins, ⟨⟩, get', -⟩
      simp [get] at get'
    case inr => cases move <;> simp_all
  | step get settled step _ ih =>
    rcases hr.cases_head with rfl | ⟨_, ⟨_, move⟩, hr⟩
    case inl =>
      rintro ⟨-, i, ins, ⟨⟩, get', forks⟩
      cases get.symm.trans get'
      exact settled forks
    case inr =>
      obtain ⟨rfl, rfl⟩ := move.eq_of_not_forks get settled step
      exact ih (by simpa using hs) hr
  | capped _ _ rest | recalled _ _ _ _ rest =>
    have := rest.forksSkipped_le
    simp only [Session.forksSkipped_countSkip] at this
    omega
  | explored get forks _ taken rest iht ihr =>
    have ht := taken.forksSkipped_le
    have hr' := rest.forksSkipped_le
    simp only [Session.forksSkipped_enter, Session.forksSkipped_countFork,
      Session.stats_finish] at ht hr' iht ihr
    rcases hr.cases_head with rfl | ⟨_, ⟨_, move⟩, hr⟩
    case inl =>
      rintro ⟨h, -⟩
      simp at h
    case inr =>
      obtain ⟨-, rfl | ⟨r, hroom, rfl⟩⟩ := move.eq_of_forks get forks
      case inl => exact ihr (by omega) hr
      case inr =>
        cases hroom
        exact iht (by omega) hr

end Explores

def root (policy : Policy) : Branch :=
  ⟨policy.maxForkDepth, .empty, .start⟩

def History (policy : Policy) (p : Program) (log : List Event) (a : Analysis) : Prop :=
  ∃ t, Explores policy p (root policy) ((Session.start p).enter 0) log t ∧ t.analysis = a

theorem exists_history_of_run {a : Analysis} (h : run policy p = .ok a) :
    ∃ log, History policy p log a := by
  simp only [run] at h
  cases he : explore policy p policy.maxForkDepth .empty .start (.start p) with
  | error e => simp [he, Except.map] at h
  | ok t =>
    have ⟨log, ht⟩ := explores_of_explore he
    rw [Nat.sub_self] at ht
    exact ⟨log, t, ht, by simpa [he, Except.map] using h⟩

theorem History.exists_recordAll {log : List Event} {a : Analysis} (h : History policy p log a) :
    ∃ seen, a = ((Analysis.blank p).recordAll seen).withStats a.stats ∧
      ∀ o ∈ seen, Branch.Sees p (root policy) o := by
  obtain ⟨t, h, rfl⟩ := h
  have ⟨seen, ha, hs⟩ := h.exists_recordAll
  rw [Session.analysis_enter, Analysis.recordAll_withStats, Analysis.withStats_withStats] at ha
  exact ⟨seen, ha, hs⟩

end Splice.Exploration
