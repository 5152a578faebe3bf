import Splice.Proofs.Budget
import Splice.Proofs.Pursuit

namespace Splice.Exploration

variable {policy : Policy} {p : Program}

-- The steps that the forks of an exploration account for: a fork that is explored has its jump
-- executed on either side, a fork that is skipped on one.
def Session.forkSteps (t : Session) : Nat :=
  2 * t.stats.forksAttempted + t.stats.forksSkipped

namespace Session

variable (t : Session)

@[simp]
theorem forkSteps_enter (depth : Nat) : (t.enter depth).forkSteps = t.forkSteps :=
  rfl

@[simp]
theorem forkSteps_countStep : t.countStep.forkSteps = t.forkSteps :=
  rfl

@[simp]
theorem forkSteps_countFork : t.countFork.forkSteps = t.forkSteps + 2 := by
  simp only [forkSteps, forksAttempted_countFork, forksSkipped_countFork]
  omega

@[simp]
theorem forkSteps_countSkip : t.countSkip.forkSteps = t.forkSteps + 1 :=
  rfl

@[simp]
theorem forkSteps_finish (key : Fork) : (t.finish key).forkSteps = t.forkSteps :=
  rfl

@[simp]
theorem forkSteps_observe (seen : Option Observation) :
    (t.observe seen).forkSteps = t.forkSteps := by
  simp only [forkSteps, stats_observe]

end Session

def Settled (p : Program) (b : Branch) : Prop :=
  ∃ i ins, b.position = .running i ∧ p.get? i = some ins ∧ ¬ins.Forks b.stack

theorem settled_set {room i : Nat} {s : Stack} {ins : Instruction} (get : p.get? i = some ins)
    (forks : ins.Forks s) (w : Word) : Settled p ⟨room, s.set 1 (.constant w), .running i⟩ :=
  ⟨i, ins, rfl, get, Instruction.not_forks_set forks w⟩

theorem not_settled_of_forks {room i : Nat} {s : Stack} {ins : Instruction}
    (get : p.get? i = some ins) (forks : ins.Forks s) : ¬Settled p ⟨room, s, .running i⟩ := by
  rintro ⟨_, _, ⟨⟩, get', settled⟩
  cases get.symm.trans get'
  exact settled forks

namespace Explores

variable {b : Branch} {t t' : Session} {log : List Event}

theorem forkSteps_le (h : Explores policy p b t log t') :
    t'.forkSteps + t.stats.steps ≤ t'.stats.steps + t.forkSteps ∧
      (Settled p b → t'.forkSteps + t.stats.steps < t'.stats.steps + t.forkSteps) := by
  induction h with
  | halted =>
    refine ⟨by omega, ?_⟩
    rintro ⟨_, _, ⟨⟩, _⟩
  | off get =>
    refine ⟨by omega, ?_⟩
    rintro ⟨_, _, ⟨⟩, get', _⟩
    cases get.symm.trans get'
  | step _ _ _ _ ih =>
    have hle := ih.1
    simp only [Session.forkSteps_countStep, Session.forkSteps_observe, Session.steps_countStep,
      Session.stats_observe] at hle
    exact ⟨by omega, fun _ => by omega⟩
  | capped get forks _ ih | recalled get forks _ _ _ ih =>
    have hlt := ih.2 (settled_set get forks 0)
    simp only [Session.forkSteps_countSkip, Session.steps_countSkip] at hlt
    exact ⟨by omega, fun settled => absurd settled (not_settled_of_forks get forks)⟩
  | explored get forks _ _ _ iht ihr =>
    have htaken := iht.2 (settled_set get forks 1)
    have hrest := ihr.2 (settled_set get forks 0)
    simp only [Session.forkSteps_enter, Session.forkSteps_countFork, Session.forkSteps_finish,
      Session.steps_enter, Session.steps_countFork, Session.stats_finish] at htaken hrest
    exact ⟨by omega, fun settled => absurd settled (not_settled_of_forks get forks)⟩

end Explores

-- A session in a branch with `room` for nested forks. All forks that the branch is nested in have
-- been counted, and so have those that the deepest branch so far was nested in.
structure Session.Counted (policy : Policy) (room : Nat) (t : Session) : Prop where
  depth    : policy.maxForkDepth ≤ t.stats.forksAttempted + room
  maxDepth : t.stats.maxDepth ≤ t.stats.forksAttempted
  room     : t.stats.maxDepth ≤ policy.maxForkDepth

theorem counted_start : ((Session.start p).enter 0).Counted policy policy.maxForkDepth where
  depth    := Nat.le_add_left ..
  maxDepth := Nat.le_refl _
  room     := Nat.zero_le _

theorem Explores.counted {b : Branch} {t t' : Session} {log : List Event}
    (h : Explores policy p b t log t') (ht : t.Counted policy b.room) :
    t'.Counted policy b.room := by
  induction h with
  | halted | off => exact ht
  | step _ _ _ _ ih =>
    obtain ⟨hdepth, hmax, hroom⟩ := ht
    refine ih ⟨?_, ?_, ?_⟩
    all_goals simpa
  | capped _ _ _ ih | recalled _ _ _ _ _ ih =>
    obtain ⟨hdepth, hmax, hroom⟩ := ht
    refine ih ⟨?_, ?_, ?_⟩
    all_goals simpa
  | explored _ _ _ _ _ iht ihr =>
    obtain ⟨hdepth, hmax, hroom⟩ := ht
    have htaken := iht ⟨?_, ?_, ?_⟩
    · obtain ⟨hdepth, hmax, hroom⟩ := htaken
      exact ihr ⟨Nat.le_trans hdepth (by simp), hmax, hroom⟩
    all_goals
      dsimp only at hdepth
      simp only [Session.forksAttempted_enter, Session.forksAttempted_countFork,
        Session.maxDepth_enter, Session.maxDepth_countFork]
      omega

-- Exploring comes to an end wherever it starts: on any stack, at any index, at any depth, whatever
-- forks it remembers and whatever it has counted. So to count its rounds and its nesting down, as
-- `explore` does, changes nothing. The counters of a whole run add up.
theorem ends_and_adds_up (policy : Policy) (p : Program) :
    (∀ depth s position t, ∃! outcome, Pursues policy p depth (.goOn position) s t outcome) ∧
    (∀ depth room s position t, depth + room = policy.maxForkDepth →
      Pursues policy p depth (.goOn position) s (t.enter depth)
        (explore policy p room s position t)) ∧
    ∀ a, run policy p = .ok a →
      2 * a.stats.forksAttempted + a.stats.forksSkipped ≤ a.stats.steps ∧
      a.stats.maxDepth ≤ policy.maxForkDepth ∧
      a.stats.maxDepth ≤ a.stats.forksAttempted := by
  refine ⟨fun depth s position t => ?_, fun depth room s position t hdepth => ?_, fun a ha => ?_⟩
  · obtain ⟨outcome, h⟩ : ∃ outcome, Pursues policy p depth (.goOn position) s t outcome :=
      ⟨_, pursues_of_room rfl (Nat.le_add_left policy.maxSteps _)⟩
    exact ⟨outcome, h, fun _ h' => h'.unique h⟩
  · exact pursues_explore hdepth
  · obtain ⟨t, he, rfl⟩ := map_eq_ok_iff.mp ha
    have ⟨log, h⟩ := explores_of_explore he
    rw [Nat.sub_self] at h
    have hsteps : t.forkSteps + 0 ≤ t.stats.steps + 0 := h.forkSteps_le.1
    have ⟨_, hmax, hroom⟩ := h.counted counted_start
    exact ⟨hsteps, hroom, hmax⟩

-- A program that jumps back to its start as long as a condition holds that is never known.
def backward : List UInt8 :=
  [0x5b, 0x34, 0x60, 0x00, 0x57, 0x00]

theorem ends_and_adds_up_backward :
    30 + 0 = Policy.standard.maxForkDepth ∧
    (∃ t, Pursues .standard (.decode backward) 30 (.goOn .start) .empty
      ((Session.start (.decode backward)).enter 30) (.ok t) ∧ t.stats = ⟨5, 0, 1, 30⟩) ∧
    ∃ a, run .standard (.decode backward) = .ok a ∧ a.stats = ⟨185, 30, 1, 30⟩ ∧
      2 * 30 + 1 ≤ 185 ∧ 30 ≤ Policy.standard.maxForkDepth ∧ 30 ≤ 30 := by
  have ⟨_, hexplore, hcounters⟩ := ends_and_adds_up .standard (.decode backward)
  have hdecode : Program.decode backward = ⟨[⟨0, .jumpdest, none⟩, ⟨1, .callvalue, none⟩,
      ⟨2, .push 1, some [0x00]⟩, ⟨4, .jumpi, none⟩, ⟨5, .stop, none⟩]⟩ := by
    cbv
  refine ⟨rfl, ?_, ?_⟩
  · have hcapped : (explore .standard (.decode backward) 0 .empty .start
        (.start (.decode backward))).map (·.stats) = .ok ⟨5, 0, 1, 30⟩ := by
      rw [hdecode]
      decide +kernel
    obtain ⟨t, ht, hstats⟩ := map_eq_ok_iff.mp hcapped
    exact ⟨t, ht ▸ hexplore 30 0 _ _ _ rfl, hstats⟩
  · have hrun : (run .standard (.decode backward)).map (·.stats) = .ok ⟨185, 30, 1, 30⟩ := by
      rw [hdecode]
      decide +kernel
    obtain ⟨a, ha, hstats⟩ := map_eq_ok_iff.mp hrun
    have hbalance := hcounters a ha
    rw [hstats] at hbalance
    exact ⟨a, ha, hstats, hbalance⟩

end Splice.Exploration
