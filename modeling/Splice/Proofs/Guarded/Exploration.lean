import Splice.Proofs.Guarded.Step
import Splice.Proofs.Sites

namespace Splice

theorem map_ite_eq_set {α : Type} {key : α → Nat} {l : List α} (hn : (l.map key).Nodup) {i : Nat}
    {a : α} (h : l[i]? = some a) (f : α → α) :
    l.map (fun b => if key b = key a then f b else b) = l.set i (f a) := by
  induction l generalizing i with
  | nil => simp at h
  | cons b l ih =>
    have ⟨hnew, hn⟩ := List.nodup_cons.mp hn
    cases i with
    | zero =>
      obtain rfl : b = a := by simpa using h
      have hkeep : ∀ c ∈ l, (if key c = key b then f c else c) = c := by
        refine fun c hc => if_neg fun he : key c = key b => hnew ?_
        exact he ▸ List.mem_map_of_mem hc
      rw [List.map_cons, if_pos rfl, List.map_congr_left hkeep, List.map_id', List.set_cons_zero]
    | succ i =>
      have h : l[i]? = some a := by simpa using h
      have hne : key b ≠ key a := fun he => hnew (he ▸ List.mem_map_of_mem (List.mem_of_getElem? h))
      rw [List.map_cons, if_neg hne, ih hn h, List.set_cons_succ]

theorem exists_findIdx? {α : Type} {key : α → Nat} {l : List α} {n : Nat} (h : n ∈ l.map key) :
    ∃ i a, l.findIdx? (key · = n) = some i ∧ l[i]? = some a ∧ key a = n := by
  cases hi : l.findIdx? (key · = n) with
  | none =>
    obtain ⟨a, hm, rfl⟩ := List.mem_map.mp h
    simpa using List.findIdx?_eq_none_iff.mp hi a hm
  | some i =>
    have ⟨hlt, ha, _⟩ := List.findIdx?_eq_some_iff_getElem.mp hi
    exact ⟨i, _, rfl, List.getElem?_eq_getElem hlt, by simpa using ha⟩

open Exploration

namespace Guarded

abbrev Explorer := Stack → Position → Session → Guarded Session

def countStep (s : Session) : Guarded Session := do
  let steps ← add s.stats.steps 1
  return s.withStats fun t => { t with steps }

def countFork (s : Session) : Guarded Session := do
  let forksAttempted ← add s.stats.forksAttempted 1
  return s.withStats fun t => { t with forksAttempted }

def countSkip (s : Session) : Guarded Session := do
  let forksSkipped ← add s.stats.forksSkipped 1
  return s.withStats fun t => { t with forksSkipped }

def observe (s : Session) : Option Observation → Guarded Session
  | none => pure s
  | some (.jump pc origin destination) =>
    match s.analysis.jumps.findIdx? (·.pc = pc) with
    | none => throw (.unresolvedJump pc)
    | some i => do
      let site ← index s.analysis.jumps i
      let jumps := s.analysis.jumps.set i (site.record origin destination)
      return { s with analysis := { s.analysis with jumps } }
  | some (.copy pc source) =>
    match s.analysis.copies.findIdx? (·.pc = pc) with
    | none => pure s
    | some i => do
      let site ← index s.analysis.copies i
      let copies := s.analysis.copies.set i (site.record source)
      return { s with analysis := { s.analysis with copies } }

def take (policy : Policy) (deeper : Option Explorer) (key : Fork) (here : Nat) (stack : Stack)
    (s : Session) : Guarded Session :=
  match s.analysis.jumps.findIdx? (·.pc = key.pc) with
  | none => throw (.unresolvedJump key.pc)
  | some _ =>
    match deeper with
    | none => countSkip s
    | some explore =>
      if policy.remembers ∧ key ∈ s.attempted then
        countSkip s
      else do
        let s ← countFork s
        let taken ← replace stack 1 (.constant 1)
        let s ← explore taken (.running here) s
        return s.finish key

def fork (policy : Policy) (deeper : Option Explorer) (pc here : Nat) (stack : Stack)
    (s : Session) : Guarded (Stack × Session) := do
  match ← peek? stack 1 with
  | none => return (stack, s)
  | some condition =>
    if condition.isConstant then
      return (stack, s)
    else
      let s ← take policy deeper ⟨pc, stack.depth, stack.shape⟩ here stack s
      let stack ← replace stack 1 (.constant 0)
      return (stack, s)

def walk (policy : Policy) (p : Program) (deeper : Option Explorer) : (rounds : Nat) → Explorer
  | _, _, .halted, s => pure s
  | rounds, stack, .running here, s =>
    match p.get? here with
    | none => pure s
    | some ins =>
      match rounds with
      | 0 => throw (.stepLimit policy.maxSteps)
      | rounds + 1 =>
        if policy.maxSteps ≤ s.stats.steps then
          throw (.stepLimit policy.maxSteps)
        else do
          let (stack, s) ←
            if ins.op = .jumpi then fork policy deeper ins.pc here stack s else pure (stack, s)
          let (stack, position, seen) ← step p ins here stack
          let s ← observe s seen
          let s ← countStep s
          walk policy p deeper rounds stack position s

def explore (policy : Policy) (p : Program) : (room depth : Nat) → Explorer
  | room, depth, stack, position, s =>
    let deeper : Option Explorer :=
      match room with
      | 0 => none
      | room + 1 => some fun stack position s => do
        let depth ← add depth 1
        explore policy p room depth stack position s
    let rounds := policy.maxSteps - s.stats.steps
    walk policy p deeper rounds stack position (s.enter depth)

def run (policy : Policy) (p : Program) : Guarded Analysis := do
  let s ← explore policy p policy.maxForkDepth 0 .empty .start (.start p)
  return s.analysis

def analyze (p : Program) : Guarded Analysis :=
  run .standard p

theorem walk_succ {policy : Policy} {p : Program} {deeper : Option Explorer} {rounds here : Nat}
    {stack : Stack} {s : Session} {ins : Instruction} (get : p.get? here = some ins)
    (h : ¬policy.maxSteps ≤ s.stats.steps) :
    walk policy p deeper (rounds + 1) stack (.running here) s =
      (if ins.op = .jumpi then fork policy deeper ins.pc here stack s else pure (stack, s)) >>=
        fun (stack, s) => step p ins here stack >>= fun (stack, position, seen) =>
          observe s seen >>= fun s => countStep s >>= fun s =>
            walk policy p deeper rounds stack position s := by
  simp only [walk, get, if_neg h]
  split <;> rfl

end Guarded

namespace Exploration

theorem walk_succ {policy : Policy} {p : Program} {deeper : Option Explorer} {rounds i : Nat}
    {s : Stack} {t : Session} {ins : Instruction} (get : p.get? i = some ins)
    (h : ¬policy.maxSteps ≤ t.stats.steps) :
    walk policy p deeper (rounds + 1) s (.running i) t =
      (if ins.op = .jumpi then fork policy deeper ins.pc i s t else .ok (s, t)) >>= fun (s, t) =>
        Step.step p ins i s >>= fun (s, position, seen) =>
          walk policy p deeper rounds s position (t.observe seen).countStep := by
  simp only [walk, get, if_neg h]
  split <;> rfl

def take (policy : Policy) (deeper : Option Explorer) (key : Fork) (here : Nat) (stack : Stack)
    (s : Session) : Except Error Session :=
  match deeper with
  | none => .ok s.countSkip
  | some explore =>
    if policy.remembers ∧ key ∈ s.attempted then
      .ok s.countSkip
    else do
      let s ← explore (stack.set 1 (.constant 1)) (.running here) s.countFork
      return s.finish key

theorem fork_eq_of_undecided {policy : Policy} {deeper : Option Explorer} {pc here : Nat}
    {stack : Stack} {s : Session} (h : stack.Undecided) :
    fork policy deeper pc here stack s =
      take policy deeper ⟨pc, stack.depth, stack.shape⟩ here stack s >>= fun s =>
        .ok (stack.set 1 (.constant 0), s) := by
  obtain ⟨v, hv, hunknown⟩ := h
  simp only [fork, hv, hunknown, Bool.false_eq_true, ↓reduceIte, take]
  cases deeper with
  | none => rfl
  | some explore =>
    dsimp only
    split
    · rfl
    · rw [bind_assoc]
      rfl

-- A session that has the sites of its program. With `room` for more forks, no more steps have been
-- taken than the budget allows and one for each fork that may still be open, and no more forks have
-- been counted than steps and open forks.
structure Session.Fits (policy : Policy) (p : Program) (room : Nat) (s : Session) : Prop where
  jumps  : s.analysis.jumpPlaces = (Analysis.blank p).jumpPlaces
  copies : s.analysis.copyPlaces = (Analysis.blank p).copyPlaces
  steps  : s.stats.steps ≤ policy.maxSteps + room
  forks  : s.stats.forksAttempted + s.stats.forksSkipped + room ≤
    s.stats.steps + policy.maxForkDepth

namespace Session

variable {policy : Policy} {p : Program} {room : Nat} {s : Session}

theorem fits_start : (start p).Fits policy p policy.maxForkDepth where
  jumps  := rfl
  copies := rfl
  steps  := Nat.zero_le _
  forks  := by simp [start, stats, Analysis.blank, Stats.zero]

theorem Fits.jumpPcs (h : s.Fits policy p room) : s.analysis.jumps.map (·.pc) = p.jumps := by
  have := congrArg (List.map Prod.fst) h.jumps
  rw [Analysis.jumpPlaces_blank, Analysis.jumpPlaces, List.map_map, List.map_map] at this
  exact this

theorem Fits.copyPcs (h : s.Fits policy p room) :
    s.analysis.copies.map (·.pc) = p.pcs (· = .codecopy) :=
  h.copies.trans Analysis.copyPlaces_blank

theorem Fits.enter (h : s.Fits policy p room) (depth : Nat) : (s.enter depth).Fits policy p room :=
  ⟨h.jumps, h.copies, h.steps, h.forks⟩

theorem Fits.observe (h : s.Fits policy p room) (seen : Option Observation) :
    (s.observe seen).Fits policy p room := by
  cases seen with
  | none => exact h
  | some o =>
    refine ⟨?_, ?_, ?_, ?_⟩
    · exact (Analysis.jumpPlaces_record ..).trans h.jumps
    · exact (Analysis.copyPlaces_record ..).trans h.copies
    · simpa using h.steps
    · simpa using h.forks

def Ready (policy : Policy) (p : Program) (room : Nat) (s : Session) : Prop :=
  s.countStep.Fits policy p room

theorem Fits.ready (h : s.Fits policy p room) (hlt : s.stats.steps < policy.maxSteps) :
    s.Ready policy p room := by
  have hforks := h.forks
  refine ⟨h.jumps, h.copies, ?_, ?_⟩
  all_goals
    simp only [steps_countStep, forksAttempted_countStep, forksSkipped_countStep]
    omega

theorem Fits.ready_countSkip (h : s.Fits policy p room) (hlt : s.stats.steps < policy.maxSteps) :
    s.countSkip.Ready policy p room := by
  have hforks := h.forks
  refine ⟨h.jumps, h.copies, ?_, ?_⟩
  all_goals
    simp only [steps_countStep, forksAttempted_countStep, forksSkipped_countStep, steps_countSkip,
      forksAttempted_countSkip, forksSkipped_countSkip]
    omega

theorem Ready.observe (h : s.Ready policy p room) (seen : Option Observation) :
    (s.observe seen).Ready policy p room := by
  have hcomm : (s.observe seen).countStep = s.countStep.observe seen := by
    rcases seen with _ | ⟨_ | _⟩ <;> rfl
  rw [Ready, hcomm]
  exact Fits.observe h seen

theorem Fits.countFork (h : s.Fits policy p (room + 1)) (hlt : s.stats.steps < policy.maxSteps) :
    s.countFork.Fits policy p room := by
  have hforks := h.forks
  refine ⟨h.jumps, h.copies, ?_, ?_⟩
  all_goals
    simp only [steps_countFork, forksAttempted_countFork, forksSkipped_countFork]
    omega

theorem Fits.ready_finish (h : s.Fits policy p room) (key : Fork) :
    (s.finish key).Ready policy p (room + 1) := by
  have hsteps := h.steps
  have hforks := h.forks
  refine ⟨h.jumps, h.copies, ?_, ?_⟩
  all_goals
    simp only [steps_countStep, forksAttempted_countStep, forksSkipped_countStep, stats_finish]
    omega

end Session

end Exploration

namespace Guarded

variable {policy : Policy} {p : Program} {room : Nat} {s : Session}

def Countable (policy : Policy) : Prop :=
  policy.maxSteps + policy.maxForkDepth + 1 < usize

theorem countStep_eq (hc : Countable policy) (hroom : room ≤ policy.maxForkDepth)
    (h : s.Ready policy p room) : countStep s = pure s.countStep := by
  have hsteps := h.steps
  simp only [Session.steps_countStep] at hsteps
  rw [countStep, add_eq (by simp only [Countable] at hc; omega), pure_bind]
  rfl

theorem countFork_eq (hc : Countable policy) (h : s.Fits policy p room) :
    countFork s = pure s.countFork := by
  have hsteps := h.steps
  have hforks := h.forks
  rw [countFork, add_eq (by simp only [Countable] at hc; omega), pure_bind]
  rfl

theorem countSkip_eq (hc : Countable policy) (h : s.Fits policy p room) :
    countSkip s = pure s.countSkip := by
  have hsteps := h.steps
  have hforks := h.forks
  rw [countSkip, add_eq (by simp only [Countable] at hc; omega), pure_bind]
  rfl

theorem observe_eq (ht : p.Tiled) (h : s.Ready policy p room) {seen : Option Observation}
    (hs : ∀ o, seen = some o → o.Sited p) : observe s seen = pure (s.observe seen) := by
  have h : s.countStep.Fits policy p room := h
  cases seen with
  | none => rfl
  | some o =>
    have ho := hs o rfl
    cases o with
    | jump pc origin destination =>
      have hpcs : s.analysis.jumps.map (·.pc) = p.jumps := h.jumpPcs
      have hm : pc ∈ s.analysis.jumps.map (·.pc) := hpcs ▸ ho
      have hn : (s.analysis.jumps.map (·.pc)).Nodup := hpcs ▸ ht.nodup_pcs _
      obtain ⟨i, site, hi, hsite, rfl⟩ := exists_findIdx? hm
      have hmap := map_ite_eq_set hn hsite (·.record origin destination)
      simp only [observe, hi, index_eq hsite, pure_bind, ← hmap]
      rfl
    | copy pc source =>
      have hpcs : s.analysis.copies.map (·.pc) = p.pcs (· = .codecopy) := h.copyPcs
      have hm : pc ∈ s.analysis.copies.map (·.pc) := hpcs ▸ ho
      have hn : (s.analysis.copies.map (·.pc)).Nodup := hpcs ▸ ht.nodup_pcs _
      obtain ⟨i, site, hi, hsite, rfl⟩ := exists_findIdx? hm
      have hmap := map_ite_eq_set hn hsite (·.record source)
      simp only [observe, hi, index_eq hsite, pure_bind, ← hmap]
      rfl

def Deeper (policy : Policy) (p : Program) :
    (room : Nat) → Option Explorer → Option Exploration.Explorer → Prop
  | 0, none, none => True
  | room + 1, some explore, some explore' => ∀ stack position s,
    stack.depth ≤ Stack.limit → s.Fits policy p room →
      Safe (explore stack position s) (explore' stack position s) fun s => s.Fits policy p room
  | _, _, _ => False

section

variable (hp : p.Sized) (hc : Countable policy) {deeper : Option Explorer}
  {deeper' : Option Exploration.Explorer} (hd : Deeper policy p room deeper deeper')

include hc hd

theorem take_safe {key : Fork} {here : Nat} {stack : Stack} (hsite : key.pc ∈ p.jumps)
    (hstack : stack.depth ≤ Stack.limit) (h : s.Fits policy p room)
    (hlt : s.stats.steps < policy.maxSteps) :
    Safe (take policy deeper key here stack s)
      (Exploration.take policy deeper' key here stack s) fun s => s.Ready policy p room := by
  obtain ⟨i, -, hi, -, -⟩ := exists_findIdx? (h.jumpPcs.symm ▸ hsite)
  have hskip := countSkip_eq hc h
  simp only [take, hi]
  match room, deeper, deeper', hd with
  | 0, none, none, _ => exact .of_pure hskip (h.ready_countSkip hlt)
  | room + 1, some explore, some explore', hd =>
    simp only [Exploration.take]
    split
    case isTrue => exact .of_pure hskip (h.ready_countSkip hlt)
    case isFalse =>
      have hsmall : 1 + 1 < usize := by decide
      refine .after (countFork_eq hc h) (.after (replace_eq stack _ hsmall) ?_)
      refine (hd _ _ _ ?_ (h.countFork hlt)).bind fun s' _ hs' => .ok (hs'.ready_finish key)
      rwa [Stack.depth_set]

theorem fork_safe {ins : Instruction} {here : Nat} {stack : Stack} (hm : ins ∈ p.instructions)
    (hop : ins.op = .jumpi) (hstack : stack.depth ≤ Stack.limit) (h : s.Fits policy p room)
    (hlt : s.stats.steps < policy.maxSteps) :
    Safe (fork policy deeper ins.pc here stack s)
      (Exploration.fork policy deeper' ins.pc here stack s) fun (stack', s') =>
        stack'.depth ≤ Stack.limit ∧ ¬ins.Forks stack' ∧ s'.Ready policy p room := by
  have hsmall : 1 + 1 < usize := by decide
  refine .after (peek?_eq stack hsmall) ?_
  by_cases hu : stack.Undecided
  case pos =>
    have ⟨v, hv, hunknown⟩ := hu
    have hsite : ins.pc ∈ p.jumps :=
      List.mem_map.mpr ⟨ins, List.mem_filter.mpr ⟨hm, by simp [hop, Opcode.isJump]⟩, rfl⟩
    rw [fork_eq_of_undecided hu]
    simp only [hv, hunknown, Bool.false_eq_true, ↓reduceIte]
    refine (take_safe hc hd hsite hstack h hlt).bind fun s' _ hs' => ?_
    refine .after (replace_eq stack _ hsmall) (.ok ⟨?_, ?_, hs'⟩)
    · rwa [Stack.depth_set]
    · exact Instruction.not_forks_set ⟨hop, hu⟩ 0
  case neg =>
    rw [fork_eq_of_not_undecided hu]
    have hsettled : ¬ins.Forks stack := fun hf => hu hf.2
    cases hv : stack.peek? 1 with
    | none => exact .ok ⟨hstack, hsettled, h.ready hlt⟩
    | some v =>
      have hconstant : v.isConstant = true := by
        by_contra hc
        exact hu ⟨v, hv, Bool.eq_false_iff.mpr hc⟩
      simp only [hconstant, ↓reduceIte]
      exact .ok ⟨hstack, hsettled, h.ready hlt⟩

theorem settled_safe {ins : Instruction} {here : Nat} {stack : Stack} (hm : ins ∈ p.instructions)
    (hstack : stack.depth ≤ Stack.limit) (h : s.Fits policy p room)
    (hlt : s.stats.steps < policy.maxSteps) :
    Safe (if ins.op = .jumpi then fork policy deeper ins.pc here stack s else pure (stack, s))
      (if ins.op = .jumpi then Exploration.fork policy deeper' ins.pc here stack s
        else .ok (stack, s)) fun (stack', s') =>
      stack'.depth ≤ Stack.limit ∧ ¬ins.Forks stack' ∧ s'.Ready policy p room := by
  split
  case isTrue hop => exact fork_safe hc hd hm hop hstack h hlt
  case isFalse hop => exact .ok ⟨hstack, fun hf => hop hf.1, h.ready hlt⟩

include hp

theorem walk_safe (hroom : room ≤ policy.maxForkDepth) {rounds : Nat} {stack : Stack}
    {position : Position} (hstack : stack.depth ≤ Stack.limit) (h : s.Fits policy p room) :
    Safe (walk policy p deeper rounds stack position s)
      (Exploration.walk policy p deeper' rounds stack position s)
      fun s => s.Fits policy p room := by
  induction rounds generalizing stack position s with
  | zero =>
    cases position with
    | halted => exact .ok h
    | running here =>
      cases get : p.get? here with
      | none => simpa only [walk, Exploration.walk, get] using .ok h
      | some ins => simpa only [walk, Exploration.walk, get] using .error rfl
  | succ rounds ih =>
    cases position with
    | halted => exact .ok h
    | running here =>
      cases get : p.get? here with
      | none => simpa only [walk, Exploration.walk, get] using .ok h
      | some ins =>
        by_cases hspent : policy.maxSteps ≤ s.stats.steps
        case pos => simpa only [walk, Exploration.walk, get, if_pos hspent] using .error rfl
        case neg =>
          have hlt : here < p.size := (List.getElem?_eq_some_iff.mp get).1
          have hhere : here + 1 < usize := by
            have := hp.size
            have : bufferLimit < usize := by decide
            omega
          have hm := List.mem_of_getElem? get
          rw [walk_succ get hspent, Exploration.walk_succ get hspent]
          refine (settled_safe hc hd hm hstack h (Nat.not_le.mp hspent)).bind ?_
          rintro ⟨stack, s⟩ - ⟨hstack, settled, ready⟩
          refine (step_safe hp hm hhere hstack settled).bind ?_
          rintro ⟨stack, position, seen⟩ - ⟨hstack, sited⟩
          have hready := ready.observe seen
          exact .after (observe_eq hp.tiled ready sited) <|
            .after (countStep_eq hc hroom hready) (ih hstack hready)

end

section

variable (hp : p.Sized) (hc : Countable policy)

include hp hc

theorem explore_safe {depth : Nat} (hdepth : depth + room = policy.maxForkDepth) {stack : Stack}
    {position : Position} (hstack : stack.depth ≤ Stack.limit) (h : s.Fits policy p room) :
    Safe (explore policy p room depth stack position s)
      (Exploration.explore policy p room stack position s) fun s => s.Fits policy p room := by
  induction room generalizing depth stack position s with
  | zero =>
    rw [explore, Exploration.explore, ← hdepth, Nat.sub_zero, Nat.add_zero]
    have hdeeper : Deeper policy p 0 none none := trivial
    exact walk_safe hp hc hdeeper (Nat.zero_le _) hstack (h.enter depth)
  | succ room ih =>
    have hnext : depth + 1 < usize := by
      simp only [Countable] at hc
      omega
    have hdeeper : Deeper policy p (room + 1)
        (some fun stack position s => do
          let depth ← add depth 1
          explore policy p room depth stack position s)
        (some (Exploration.explore policy p room)) :=
      fun _ _ _ hstack h => .after (add_eq hnext) (ih (by omega) hstack h)
    have hcur : policy.maxForkDepth - (room + 1) = depth := by omega
    rw [explore, Exploration.explore, hcur]
    exact walk_safe hp hc hdeeper (by omega) hstack (h.enter depth)

theorem run_safe : Safe (run policy p) (Exploration.run policy p) fun _ => True := by
  have hempty : Stack.empty.depth ≤ Stack.limit := Nat.zero_le _
  exact (explore_safe hp hc (Nat.zero_add _) hempty Session.fits_start).map fun _ _ _ => trivial

end

theorem analyze_safe (hp : p.Sized) : Safe (analyze p) (Splice.analyze p) fun _ => True :=
  run_safe hp (show 10000 + 30 + 1 < usize by decide)

end Guarded

end Splice
