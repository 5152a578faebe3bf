import Splice.Proofs.Guarded.Exploration

namespace Splice

theorem exists_of_forM_eq_error {ε α : Type} {f : α → Except ε Unit} {as : List α} {e : ε}
    (h : as.forM f = .error e) : ∃ a ∈ as, f a = .error e := by
  induction as with
  | nil => simp [List.forM, pure, Except.pure] at h
  | cons a as ih =>
    have h : (f a >>= fun _ => as.forM f) = .error e := h
    cases ha : f a with
    | error e' =>
      rw [ha] at h
      exact ⟨a, List.mem_cons_self, ha.trans h⟩
    | ok u =>
      rw [ha] at h
      have ⟨b, hm, hb⟩ := ih h
      exact ⟨b, List.mem_cons_of_mem _ hm, hb⟩

namespace Guarded

def target? (p : Program) (push : Instruction) : Guarded (Option Nat) := do
  match ← offset? push with
  | none => return none
  | some n => return if ← isJumpdest p n then some n else none

def rescue (p : Program) (site : JumpSite) : Guarded JumpSite := do
  match ((p.indexOf? site.pc).bind p.before?).filter (·.op.isPush) with
  | none => return site
  | some push =>
    match ← target? p push with
    | none => throw (.invalidJump site.pc (← ofBytes (← immediate push)))
    | some destination => return site.record ⟨push.pc, false, .adjacent⟩ destination

def rescueAll (p : Program) : List JumpSite → Guarded (List JumpSite)
  | [] => pure []
  | site :: rest => do
    let site ← if site.isResolved then pure site else rescue p site
    return site :: (← rescueAll p rest)

def resolve (p : Program) : Guarded Resolution := do
  let a ← analyze p
  let jumps ← rescueAll p a.jumps
  ofExcept (jumps.forM Resolution.checkJump)
  ofExcept (a.copies.forM Resolution.checkCopy)
  return { jumps, copies := a.copies, stats := a.stats }

theorem target?_eq (p : Program) (push : Instruction) :
    target? p push = pure (push.offset?.filter p.isJumpdest) := by
  rw [target?, offset?_eq, pure_bind]
  cases push.offset? with
  | none => rfl
  | some n =>
    dsimp only
    rw [isJumpdest_eq, pure_bind]
    rfl

theorem checkOrigins_foreseen {pc : Nat} {kind : SiteKind} {origins : List Origin} {e : Error}
    (h : Resolution.checkOrigins pc kind origins = .error e) : e.kind ∈ inputKinds := by
  simp only [Resolution.checkOrigins] at h
  split at h
  case h_1 => simp at h
  case h_2 =>
    cases h
    simp [Error.kind, inputKinds]

theorem checkJump_foreseen {site : JumpSite} {e : Error}
    (h : Resolution.checkJump site = .error e) : e.kind ∈ inputKinds := by
  simp only [Resolution.checkJump] at h
  split at h
  case isTrue => exact checkOrigins_foreseen h
  case isFalse =>
    cases h
    simp [Error.kind, inputKinds]

theorem checkCopy_foreseen {site : CopySite} {e : Error}
    (h : Resolution.checkCopy site = .error e) : e.kind ∈ inputKinds := by
  have hgap (gap : CopyGap) : (Error.unresolvedCopy site.pc gap).kind ∈ inputKinds := by
    simp [Error.kind, inputKinds]
  simp only [Resolution.checkCopy] at h
  split at h
  case isTrue => exact Except.error.inj h ▸ hgap _
  split at h
  case isTrue => exact Except.error.inj h ▸ hgap _
  split at h
  case isTrue => exact checkOrigins_foreseen h
  case isFalse => exact Except.error.inj h ▸ hgap _

section

variable {p : Program} (hp : p.Sized)

include hp

theorem rescue_safe (site : JumpSite) :
    Safe (rescue p site) (Resolution.rescue p site) fun _ => True := by
  rw [rescue, Resolution.rescue]
  cases hpush : ((p.indexOf? site.pc).bind p.before?).filter (·.op.isPush) with
  | none => exact .ok trivial
  | some push =>
    have hm : push ∈ p.instructions := by
      obtain ⟨hbefore, _⟩ := Option.filter_eq_some_iff.mp hpush
      obtain ⟨i, _, hbefore⟩ := Option.bind_eq_some_iff.mp hbefore
      cases i with
      | zero => simp [Program.before?] at hbefore
      | succ i => exact List.mem_of_getElem? hbefore
    have hwidth : push.immediate.length ≤ 32 := by
      rw [Instruction.length_immediate]
      exact hp.width_le hm
    refine .after (target?_eq p push) ?_
    dsimp only
    cases push.offset?.filter p.isJumpdest with
    | none => exact .after (immediate_eq push) (.after (ofBytes_eq hwidth) (.error rfl))
    | some destination => exact .ok trivial

theorem rescueAll_safe (sites : List JumpSite) :
    Safe (rescueAll p sites) (Resolution.rescueAll p sites) fun _ => True := by
  induction sites with
  | nil => exact .ok trivial
  | cons site sites ih =>
    simp only [rescueAll, Resolution.rescueAll]
    split
    case isTrue => exact ih.bind fun _ _ _ => .ok trivial
    case isFalse => exact (rescue_safe hp site).bind fun _ _ _ => ih.bind fun _ _ _ => .ok trivial

theorem resolve_safe : Safe (resolve p) (Splice.resolve p) fun _ => True := by
  refine (analyze_safe hp).bind fun a _ _ => ?_
  refine (rescueAll_safe hp a.jumps).bind fun jumps _ _ => ?_
  have hjumps : ∀ e, jumps.forM Resolution.checkJump = .error e → e.kind ∈ inputKinds := by
    intro e h
    have ⟨_, _, h⟩ := exists_of_forM_eq_error h
    exact checkJump_foreseen h
  have hcopies : ∀ e, a.copies.forM Resolution.checkCopy = .error e → e.kind ∈ inputKinds := by
    intro e h
    have ⟨_, _, h⟩ := exists_of_forM_eq_error h
    exact checkCopy_foreseen h
  exact (Safe.ofExcept hjumps fun _ _ => trivial).bind fun _ _ _ =>
    (Safe.ofExcept hcopies fun _ _ => trivial).bind fun _ _ _ => .ok trivial

end

end Guarded
end Splice
