import Splice.Proofs.Turns

namespace Splice.Exploration

open Moment

namespace Session

section

variable (t : Session)

@[simp]
theorem maxDepth_enter (depth : Nat) :
    (t.enter depth).stats.maxDepth = max t.stats.maxDepth depth :=
  rfl

@[simp]
theorem maxDepth_countStep : t.countStep.stats.maxDepth = t.stats.maxDepth :=
  rfl

@[simp]
theorem maxDepth_countFork : t.countFork.stats.maxDepth = t.stats.maxDepth :=
  rfl

@[simp]
theorem maxDepth_countSkip : t.countSkip.stats.maxDepth = t.stats.maxDepth :=
  rfl

end

section

variable (t : Session)

@[simp]
theorem attempted_enter (depth : Nat) : (t.enter depth).attempted = t.attempted :=
  rfl

@[simp]
theorem attempted_countStep : t.countStep.attempted = t.attempted :=
  rfl

@[simp]
theorem attempted_countFork : t.countFork.attempted = t.attempted :=
  rfl

@[simp]
theorem attempted_observe (seen : Option Observation) :
    (t.observe seen).attempted = t.attempted := by
  cases seen <;> rfl

end

end Session

variable {policy : Policy} {p : Program}

-- The budget holds but for one instruction of each branch that has waited for a nested one: such a
-- branch looked at the budget before it began to wait.
structure Moment.Within (policy : Policy) (m : Moment) : Prop where
  steps : m.session.stats.steps + m.waiting.length ≤
    policy.maxSteps + m.session.stats.maxDepth
  depth : m.waiting.length ≤ m.session.stats.maxDepth
  room  : m.session.stats.maxDepth ≤ policy.maxForkDepth

theorem within_start : (start p).Within policy where
  steps := Nat.zero_le _
  depth := Nat.zero_le _
  room  := Nat.zero_le _

theorem Moment.Within.proceeds {m m' : Moment} (h : m.Within policy)
    (hm : Proceeds policy p m m') : m'.Within policy := by
  obtain ⟨hsteps, hdepth, hroom⟩ := h
  cases hm with
  | step _ left | skip _ left =>
    constructor
    all_goals
      simp only [Session.steps_countStep, Session.maxDepth_countStep, Session.stats_observe,
        Session.steps_countSkip, Session.maxDepth_countSkip] at *
      omega
  | take _ left _ room =>
    constructor
    all_goals
      simp only [Session.steps_enter, Session.maxDepth_enter, Session.steps_countFork,
        Session.maxDepth_countFork, List.length_cons] at *
      omega
  | resume =>
    constructor
    all_goals
      simp only [Session.steps_countStep, Session.maxDepth_countStep, Session.stats_observe,
        Session.stats_finish, List.length_cons] at *
      omega

theorem Passes.within {m : Moment} (h : Passes policy p m) : m.Within policy := by
  induction h with
  | refl => exact within_start
  | tail _ hlead ih => exact ih.proceeds (proceeds_of_turn hlead)

theorem session_of_turn {m : Moment} {t : Session} (h : m.turn policy p = .done (.ok t)) :
    m.session = t := by
  have hact {ins i s waiting t'} : act p ins i s waiting t' ≠ .done (.ok t) := by
    rw [act]
    split <;> simp
  have hresume {waiting t'} (h : resume p waiting t' = .done (.ok t)) : t' = t := by
    cases waiting with
    | nil => simpa [resume] using h
    | cons => exact absurd h hact
  simp only [turn] at h
  split at h
  case h_1 => exact hresume h
  case h_2 =>
    split at h
    case h_1 => exact hresume h
    case h_2 =>
      split at h
      case isTrue => cases h
      case isFalse =>
        split at h
        case isTrue =>
          split at h
          case isTrue => cases h
          case isFalse => exact absurd h hact
        case isFalse => exact absurd h hact

theorem Proceeds.steps_of_over {m m' : Moment} (h : Proceeds policy p m m')
    (ended : Over p m.position) : m'.session.stats.steps = m.session.stats.steps + 1 := by
  cases h with
  | resume => simp
  | step get | skip get | take get => simp [ended _ rfl] at get

theorem Proceeds.steps_le_of_not_over {m m' : Moment} (h : Proceeds policy p m m')
    (running : ¬Over p m.position) : m'.session.stats.steps ≤ policy.maxSteps := by
  cases h with
  | resume ended => exact absurd ended running
  | step _ left | skip _ left => simpa using Nat.succ_le_of_lt left
  | take _ left => simpa using Nat.le_of_lt left

theorem passes_within_iff :
    (∀ m, Passes policy p m → m.session.stats.steps ≤ policy.maxSteps) ↔
      ∀ m m', Passes policy p m → Leads policy p m m' → Over p m.position →
        m.session.stats.steps < policy.maxSteps := by
  constructor
  case mp =>
    intro h m m' hm hlead ended
    have hsteps := (proceeds_of_turn hlead).steps_of_over ended
    have hle := h m' (hm.tail hlead)
    omega
  case mpr =>
    intro h m hm
    induction hm with
    | refl => exact Nat.zero_le _
    | @tail m m' hm hlead =>
      have hproceeds := proceeds_of_turn hlead
      by_cases ended : Over p m.position
      case pos => exact hproceeds.steps_of_over ended ▸ h m m' hm hlead ended
      case neg => exact hproceeds.steps_le_of_not_over ended

-- The budget is no strict bound: each branch that waited for a nested one executes an instruction
-- without looking at it again. So a run may go over its budget by as many steps as its forks were
-- nested deep, and by no more, and it stays within exactly where such branches find steps left; it
-- fails where it looks at a budget that is spent.
theorem overruns_by_depth (policy : Policy) (p : Program) :
    (∀ r, run policy p = r ↔ ∃ m outcome, Passes policy p m ∧
      m.turn policy p = .done outcome ∧ outcome.map (·.analysis) = r) ∧
    (∀ m, Passes policy p m →
      m.session.stats.steps + m.waiting.length ≤ policy.maxSteps + m.session.stats.maxDepth ∧
      m.session.stats.maxDepth ≤ policy.maxForkDepth) ∧
    ((∀ m, Passes policy p m → m.session.stats.steps ≤ policy.maxSteps) ↔
      ∀ m m', Passes policy p m → Leads policy p m m' → Over p m.position →
        m.session.stats.steps < policy.maxSteps) ∧
    (∀ m i ins, Passes policy p m → m.position = .running i → p.get? i = some ins →
      policy.maxSteps ≤ m.session.stats.steps →
        run policy p = .error (.stepLimit policy.maxSteps)) ∧
    ∀ a, run policy p = .ok a →
      a.stats.steps ≤ policy.maxSteps + a.stats.maxDepth ∧
      a.stats.maxDepth ≤ policy.maxForkDepth := by
  refine ⟨fun r => run_eq_iff, fun m hm => ⟨hm.within.steps, hm.within.room⟩, passes_within_iff,
    ?_, fun a ha => ?_⟩
  · rintro ⟨s, _, waiting, t⟩ i ins hm rfl get spent
    exact run_eq_iff.mpr ⟨_, _, hm, turn_spent get spent, rfl⟩
  · obtain ⟨m, outcome, hm, hdone, houtcome⟩ := run_eq_iff.mp ha
    obtain ⟨t, rfl, rfl⟩ := map_eq_ok_iff.mp houtcome
    obtain rfl := session_of_turn hdone
    exact ⟨Nat.le_trans (Nat.le_add_right ..) hm.within.steps, hm.within.room⟩

section

variable {s s' s'' : Stack} {position position' position'' : Position} {i n n' : Nat}
  {ins : Instruction} {seen : Option Observation}

theorem leads_of_step {waiting : List Waiting} {t : Session} (get : p.get? i = some ins)
    (left : t.stats.steps < policy.maxSteps) (settled : ¬ins.Forks s)
    (step : Step.step p ins i s = .ok (s', position, seen)) :
    Leads policy p ⟨s, .running i, waiting, t⟩
      ⟨s', position, waiting, (t.observe seen).countStep⟩ := by
  rw [Leads, turn_settled get (Nat.not_le.mpr left) settled]
  exact act_eq_next_iff.mpr ⟨_, _, _, step, rfl⟩

-- A branch goes on for `n` steps without a fork, whatever waits for it, if the budget has as much
-- left.
def Goes (policy : Policy) (p : Program) (n : Nat) (s : Stack) (position : Position) (s' : Stack)
    (position' : Position) : Prop :=
  ∀ waiting t, t.stats.steps + n ≤ policy.maxSteps → ∃ t',
    Relation.ReflTransGen (Leads policy p) ⟨s, position, waiting, t⟩ ⟨s', position', waiting, t'⟩ ∧
      t'.stats.steps = t.stats.steps + n ∧ t'.attempted = t.attempted

theorem Goes.trans (h : Goes policy p n s position s' position')
    (h' : Goes policy p n' s' position' s'' position'') :
    Goes policy p (n + n') s position s'' position'' := by
  intro waiting t left
  have ⟨t₁, hleads, hsteps, hattempted⟩ := h waiting t (by omega)
  have ⟨t₂, hleads', hsteps', hattempted'⟩ := h' waiting t₁ (by omega)
  exact ⟨t₂, hleads.trans hleads', by omega, hattempted'.trans hattempted⟩

theorem Goes.step (get : p.get? i = some ins) (settled : ¬ins.Forks s)
    (step : Step.step p ins i s = .ok (s', position, seen)) :
    Goes policy p 1 s (.running i) s' position :=
  fun _ _ left => ⟨_, .single (leads_of_step get left settled step), by simp, by simp⟩

theorem Goes.plain (get : p.get? i = some ins) (hop : ins.op ≠ .jumpi)
    (step : Step.step p ins i s = .ok (s', position, seen)) :
    Goes policy p 1 s (.running i) s' position :=
  .step get (fun forks => hop forks.1) step

end

-- A program that spends most of a budget of 10000 steps in a loop and then forks at every arrival
-- at its last jump.
def countdown : List UInt8 := [
  0x61, 0x05, 0x82, 0x5b, 0x60, 0x01, 0x90, 0x03, 0x80, 0x60, 0x03, 0x57, 0x5b, 0x5b, 0x5b, 0x5b,
  0x5b, 0x5b, 0x34, 0x60, 0x11, 0x57]

namespace Countdown

def program : Program where
  instructions := [
    ⟨0, .push 2, some [0x05, 0x82]⟩, ⟨3, .jumpdest, none⟩, ⟨4, .push 1, some [0x01]⟩,
    ⟨6, .swap 1, none⟩, ⟨7, .sub, none⟩, ⟨8, .dup 1, none⟩, ⟨9, .push 1, some [0x03]⟩,
    ⟨11, .jumpi, none⟩, ⟨12, .jumpdest, none⟩, ⟨13, .jumpdest, none⟩, ⟨14, .jumpdest, none⟩,
    ⟨15, .jumpdest, none⟩, ⟨16, .jumpdest, none⟩, ⟨17, .jumpdest, none⟩, ⟨18, .callvalue, none⟩,
    ⟨19, .push 1, some [0x11]⟩, ⟨21, .jumpi, none⟩]

theorem decode_countdown : Program.decode countdown = program := by
  cbv

def counter (w : Word) : Value :=
  (Value.constant w).copied

variable {v : Value} {w : Word}

theorem step_sub (h : v.word? = some w) :
    Step.step program ⟨7, .sub, none⟩ 4 ⟨[v, .pushed 4 1]⟩ =
      .ok (⟨[.constant (w - 1)]⟩, .running 5, none) := by
  rcases v with ⟨_ | _ | _, _⟩ <;> cases h <;> rfl

theorem step_again (h : w ≠ 0) :
    Step.step program ⟨11, .jumpi, none⟩ 7 ⟨[.pushed 9 3, counter w, counter w]⟩ =
      .ok (⟨[counter w]⟩, .running 1, some (.jump 11 ⟨9, false, .traced⟩ (some 3))) := by
  have he : Step.execute program ⟨11, .jumpi, none⟩ 7 ⟨[.pushed 9 3, counter w, counter w]⟩ =
      .ok ⟨⟨[counter w]⟩, 1, some (.jump 11 ⟨9, false, .traced⟩ (some 3))⟩ := if_neg h
  rw [Step.step, he]
  rfl

theorem goes_round (h : v.word? = some w) :
    Goes .standard program 6 ⟨[v]⟩ (.running 1)
      ⟨[.pushed 9 3, counter (w - 1), counter (w - 1)]⟩ (.running 7) := by
  have hdest : Goes .standard program 1 ⟨[v]⟩ (.running 1) ⟨[v]⟩ (.running 2) :=
    .plain rfl (by decide) rfl
  have hone : Goes .standard program 1 ⟨[v]⟩ (.running 2) ⟨[.pushed 4 1, v]⟩ (.running 3) :=
    .plain rfl (by decide) rfl
  have hswap : Goes .standard program 1 ⟨[.pushed 4 1, v]⟩ (.running 3) ⟨[v, .pushed 4 1]⟩
      (.running 4) :=
    .plain rfl (by decide) rfl
  have hsub : Goes .standard program 1 ⟨[v, .pushed 4 1]⟩ (.running 4) ⟨[.constant (w - 1)]⟩
      (.running 5) :=
    .plain rfl (by decide) (step_sub h)
  have hdup : Goes .standard program 1 ⟨[.constant (w - 1)]⟩ (.running 5)
      ⟨[counter (w - 1), counter (w - 1)]⟩ (.running 6) :=
    .plain rfl (by decide) rfl
  have hpush : Goes .standard program 1 ⟨[counter (w - 1), counter (w - 1)]⟩ (.running 6)
      ⟨[.pushed 9 3, counter (w - 1), counter (w - 1)]⟩ (.running 7) :=
    .plain rfl (by decide) rfl
  exact hdest.trans <| hone.trans <| hswap.trans <| hsub.trans <| hdup.trans hpush

theorem not_forks_counter : ¬(⟨11, .jumpi, none⟩ : Instruction).Forks
    ⟨[.pushed 9 3, counter w, counter w]⟩ := by
  rintro ⟨-, _, ⟨⟩, hunknown⟩
  cases hunknown

theorem goes_loop {n : Nat} (h : v.word? = some w) (hw : w.toNat = n + 1) :
    Goes .standard program (7 * (n + 1)) ⟨[v]⟩ (.running 1) ⟨[counter 0]⟩ (.running 8) := by
  induction n generalizing v w with
  | zero =>
    obtain rfl : w = 1 := BitVec.eq_of_toNat_eq hw
    exact (goes_round h).trans (.step rfl not_forks_counter rfl)
  | succ n ih =>
    have hn : (w - 1).toNat = n + 1 := by
      have hlt := w.isLt
      rw [BitVec.toNat_sub]
      change (2 ^ 256 - 1 + w.toNat) % 2 ^ 256 = n + 1
      omega
    have hne : w - 1 ≠ 0 := fun hz => Nat.succ_ne_zero n (hn.symm.trans (congrArg BitVec.toNat hz))
    have hagain : Goes .standard program 1 ⟨[.pushed 9 3, counter (w - 1), counter (w - 1)]⟩
        (.running 7) ⟨[counter (w - 1)]⟩ (.running 1) :=
      .step rfl not_forks_counter (step_again hne)
    have hall := ((goes_round h).trans hagain).trans (ih rfl hn)
    rwa [show 6 + 1 + 7 * (n + 1) = 7 * (n + 1 + 1) by omega] at hall

theorem goes_start :
    Goes .standard program 9876 .empty .start ⟨[counter 0]⟩ (.running 13) := by
  have hpush : Goes .standard program 1 .empty .start ⟨[.pushed 0 1410]⟩ (.running 1) :=
    .plain rfl (by decide) rfl
  have hloop : Goes .standard program (7 * 1410) ⟨[.pushed 0 1410]⟩ (.running 1) ⟨[counter 0]⟩
      (.running 8) :=
    goes_loop rfl rfl
  have hdest {i j : Nat} {pc : Nat} (get : program.get? i = some ⟨pc, .jumpdest, none⟩)
      (step : Step.step program ⟨pc, .jumpdest, none⟩ i ⟨[counter 0]⟩ =
        .ok (⟨[counter 0]⟩, .running j, none)) :
      Goes .standard program 1 ⟨[counter 0]⟩ (.running i) ⟨[counter 0]⟩ (.running j) :=
    .plain get (by simp) step
  exact hpush.trans <| hloop.trans <| (hdest (i := 8) (j := 9) rfl rfl).trans <|
    (hdest (i := 9) (j := 10) rfl rfl).trans <| (hdest (i := 10) (j := 11) rfl rfl).trans <|
      (hdest (i := 11) (j := 12) rfl rfl).trans (hdest (i := 12) (j := 13) rfl rfl)

def lastJump : Instruction :=
  ⟨21, .jumpi, none⟩

def undecided (v : Value) : Stack :=
  ⟨[.pushed 19 17, .unknown, v]⟩

theorem goes_fork : Goes .standard program 3 ⟨[v]⟩ (.running 13) (undecided v) (.running 16) := by
  have hdest : Goes .standard program 1 ⟨[v]⟩ (.running 13) ⟨[v]⟩ (.running 14) :=
    .plain rfl (by decide) rfl
  have hcall : Goes .standard program 1 ⟨[v]⟩ (.running 14) ⟨[.unknown, v]⟩ (.running 15) :=
    .plain rfl (by decide) rfl
  have hpush : Goes .standard program 1 ⟨[.unknown, v]⟩ (.running 15) (undecided v)
      (.running 16) :=
    .plain rfl (by decide) rfl
  exact hdest.trans (hcall.trans hpush)

theorem forks_last : lastJump.Forks (undecided v) :=
  ⟨rfl, _, rfl, rfl⟩

theorem goes_taken :
    Goes .standard program 1 ((undecided v).set 1 (.constant 1)) (.running 16) ⟨[v]⟩
      (.running 13) :=
  .step rfl (Instruction.not_forks_set forks_last 1) rfl

theorem act_pass {waiting : List Waiting} {t : Session} :
    ∃ t', act program lastJump 16 ((undecided v).set 1 (.constant 0)) waiting t =
      .next ⟨⟨[v]⟩, .halted, waiting, t'⟩ ∧ t'.stats.steps = t.stats.steps + 1 := by
  have step : Step.step program lastJump 16 ((undecided v).set 1 (.constant 0)) =
      .ok (⟨[v]⟩, .halted, some (.jump 21 ⟨19, false, .traced⟩ none)) :=
    rfl
  exact ⟨_, act_eq_next_iff.mpr ⟨_, _, _, step, rfl⟩, by simp⟩

-- With `room` for nested forks four steps are executed in each branch on the way down, and one in
-- each on the way back up. Only the way down looks at the budget.
theorem leads_nested (room : Nat) {waiting : List Waiting} {t : Session}
    (hroom : waiting.length + room = 30) (hnew : t.attempted = [])
    (left : t.stats.steps + 4 * (room + 1) ≤ 10000) :
    ∃ t', Relation.ReflTransGen (Leads .standard program) ⟨⟨[v]⟩, .running 13, waiting, t⟩
      ⟨⟨[v]⟩, .halted, waiting, t'⟩ ∧ t'.stats.steps = t.stats.steps + 4 * (room + 1) + room := by
  have hmax : Policy.standard.maxSteps = 10000 := rfl
  have hdepth : Policy.standard.maxForkDepth = 30 := rfl
  induction room generalizing waiting t with
  | zero =>
    have ⟨t₁, hfork, hsteps₁, _⟩ := @goes_fork v waiting t (by omega)
    have ⟨t₂, hpass, hsteps₂⟩ := @act_pass v waiting t₁.countSkip
    have hskip : Leads .standard program ⟨undecided v, .running 16, waiting, t₁⟩
        ⟨⟨[v]⟩, .halted, waiting, t₂⟩ :=
      (turn_skip rfl (by omega) forks_last fun new => absurd new.1 (by omega)).trans hpass
    rw [Session.steps_countSkip] at hsteps₂
    exact ⟨t₂, hfork.tail hskip, by omega⟩
  | succ room ih =>
    have ⟨t₁, hfork, hsteps₁, hattempted₁⟩ := @goes_fork v waiting t (by omega)
    have hunknown : ¬(Policy.standard.remembers ∧
        key lastJump (undecided v) ∈ t₁.attempted) := by
      simp [hattempted₁, hnew]
    have htake : Leads .standard program ⟨undecided v, .running 16, waiting, t₁⟩
        ⟨(undecided v).set 1 (.constant 1), .running 16, ⟨lastJump, 16, undecided v⟩ :: waiting,
          t₁.countFork.enter (waiting.length + 1)⟩ :=
      turn_take rfl (by omega) forks_last (by omega) hunknown
    have ⟨t₂, htaken, hsteps₂, hattempted₂⟩ := @goes_taken v
      (⟨lastJump, 16, undecided v⟩ :: waiting) (t₁.countFork.enter (waiting.length + 1))
      (by simp; omega)
    simp only [Session.steps_enter, Session.steps_countFork, Session.attempted_enter,
      Session.attempted_countFork] at hsteps₂ hattempted₂
    have ⟨t₃, hnested, hsteps₃⟩ := @ih (⟨lastJump, 16, undecided v⟩ :: waiting) t₂
      (by simp; omega) (hattempted₂.trans (hattempted₁.trans hnew)) (by omega)
    have ⟨t₄, hpass, hsteps₄⟩ := @act_pass v waiting (t₃.finish (key lastJump (undecided v)))
    rw [Session.stats_finish] at hsteps₄
    exact ⟨t₄, ((hfork.tail htake).trans (htaken.trans hnested)).tail hpass, by omega⟩

theorem exists_run : ∃ a, run .standard program = .ok a ∧ a.stats.steps = 10030 := by
  have hzero : ((Session.start program).enter 0).stats.steps = 0 := rfl
  have hmax : Policy.standard.maxSteps = 10000 := rfl
  have ⟨t₁, hstart, hsteps₁, hnew⟩ := goes_start [] ((Session.start program).enter 0) (by omega)
  have ⟨t₂, hnested, hsteps₂⟩ := @leads_nested (counter 0) 30 [] t₁ rfl hnew (by omega)
  have hrun : run .standard program = .ok t₂.analysis :=
    run_eq_iff.mpr ⟨_, .ok t₂, hstart.trans hnested, rfl, rfl⟩
  have hsteps : t₂.stats.steps = 10030 := by omega
  exact ⟨t₂.analysis, hrun, hsteps⟩

end Countdown

theorem overruns_by_depth_countdown :
    ∃ a, analyze (.decode countdown) = .ok a ∧ a.stats.steps = 10030 ∧ a.stats.maxDepth = 30 := by
  rw [Countdown.decode_countdown]
  have ⟨a, ha, hsteps⟩ := Countdown.exists_run
  have ⟨_, _, _, _, hbound⟩ := overruns_by_depth .standard Countdown.program
  have ⟨hle, hroom⟩ := hbound a ha
  rw [hsteps] at hle
  change 10030 ≤ 10000 + _ at hle
  change _ ≤ 30 at hroom
  exact ⟨a, ha, hsteps, by omega⟩

theorem budget_overrun_behind_forks :
    ¬∀ code a, analyze (.decode code) = .ok a → a.stats.steps ≤ 10000 := by
  intro h
  have ⟨a, ha, hsteps⟩ := Countdown.exists_run
  rw [← Countdown.decode_countdown] at ha
  have hle := h countdown a ha
  omega

end Splice.Exploration
