import Splice.Proofs.Landing
import Splice.Proofs.Sites

namespace Splice

namespace Program

def PushBefore (p : Program) (pc : Nat) (push : Instruction) : Prop :=
  ∃ i ins, p.get? i = some push ∧ push.op.isPush ∧ p.get? (i + 1) = some ins ∧ ins.pc = pc

variable {p : Program}

theorem Tiled.pushBefore_iff (ht : p.Tiled) {pc : Nat} {push : Instruction} :
    ((p.indexOf? pc).bind p.before?).filter (·.op.isPush) = some push ↔ p.PushBefore pc push := by
  simp only [Option.filter_eq_some_iff, Option.bind_eq_some_iff, ht.indexOf?_eq_some_iff]
  constructor
  case mp =>
    rintro ⟨⟨_ | i, ⟨ins, hins, hpc⟩, hbefore⟩, hpush⟩
    case zero => simp [before?] at hbefore
    case succ => exact ⟨i, ins, hbefore, hpush, hins, hpc⟩
  case mpr =>
    rintro ⟨i, ins, hbefore, hpush, hins, hpc⟩
    exact ⟨⟨i + 1, ⟨ins, hins, hpc⟩, hbefore⟩, hpush⟩

theorem lt_length_of_isJumpdest {code : List UInt8} {pc : Nat} (h : (decode code).isJumpdest pc) :
    pc < code.length := by
  obtain ⟨ins, hins, -⟩ := isJumpdest_iff.mp h
  obtain ⟨hm, rfl⟩ := (tiled_decode code).atPc?_eq_some_iff.mp hins
  exact Nat.zero_add code.length ▸ pc_lt_of_mem_decodeFrom hm

theorem offset?_filter_isJumpdest {code : List UInt8} (h : code.length ≤ BigEndian.bound 8)
    {push : Instruction} {d : Nat} :
    push.offset?.filter (decode code).isJumpdest = some d ↔
      (decode code).isJumpdest push.value ∧ push.value = d := by
  simp only [Option.filter_eq_some_iff, Instruction.offset?_eq_some_iff]
  constructor
  case mp =>
    rintro ⟨⟨-, rfl⟩, hd⟩
    exact ⟨hd, rfl⟩
  case mpr =>
    rintro ⟨hd, rfl⟩
    exact ⟨⟨Nat.lt_of_lt_of_le (lt_length_of_isJumpdest hd) h, rfl⟩, hd⟩

end Program

theorem forall₂_and_iff {α β : Type} {R : α → β → Prop} {P : β → Prop} {as : List α} {bs : List β} :
    List.Forall₂ R as bs ∧ (∀ b ∈ bs, P b) ↔ List.Forall₂ (fun a b => R a b ∧ P b) as bs := by
  constructor
  case mp =>
    rintro ⟨h, hp⟩
    induction h with
    | nil => exact .nil
    | cons hr _ ih =>
      have ⟨hb, hbs⟩ := List.forall_mem_cons.mp hp
      exact .cons ⟨hr, hb⟩ (ih hbs)
  case mpr =>
    intro h
    induction h with
    | nil => simp
    | cons hr _ ih => exact ⟨.cons hr.1 ih.1, List.forall_mem_cons.mpr ⟨hr.2, ih.2⟩⟩

theorem exists_forall₂_iff {α β : Type} {R : α → β → Prop} {as : List α} :
    (∃ bs, List.Forall₂ R as bs) ↔ ∀ a ∈ as, ∃ b, R a b := by
  induction as with
  | nil => simp
  | cons a as ih =>
    rw [List.forall_mem_cons, ← ih]
    constructor
    case mp =>
      rintro ⟨_, h⟩
      obtain ⟨b, bs, hr, hrs, -⟩ := List.forall₂_cons_left_iff.mp h
      exact ⟨⟨b, hr⟩, bs, hrs⟩
    case mpr =>
      rintro ⟨⟨b, hr⟩, bs, hrs⟩
      exact ⟨b :: bs, .cons hr hrs⟩

theorem length_filter_of_forall₂ {α β : Type} {p : α → Bool} {q : β → Bool} {as : List α}
    {bs : List β} (h : List.Forall₂ (fun a b => p a = q b) as bs) :
    (as.filter p).length = (bs.filter q).length := by
  induction h with
  | nil => rfl
  | cons hpq _ ih =>
    simp only [List.filter_cons, hpq]
    split <;> simp [ih]

theorem JumpSite.isResolved_iff {s : JumpSite} : s.isResolved ↔ s.origins ≠ [] := by
  simp [isResolved]

theorem CopySite.isResolved_iff {s : CopySite} :
    s.isResolved ↔ s.origins ≠ [] ∧ s.computed = false ∧ s.dynamic = false := by
  simp [isResolved, and_assoc]

namespace Resolution

variable {p : Program} {a : Analysis} {r : Resolution}

theorem checkOrigins_eq_ok_iff {pc : Nat} {kind : SiteKind} {os : List Origin} :
    checkOrigins pc kind os = .ok () ↔ ∀ o ∈ os, o.duplicated = false := by
  simp only [checkOrigins]
  cases h : os.find? (·.duplicated) with
  | none => simpa using h
  | some o =>
    have hd : o.duplicated = true := List.find?_some h
    have hm := List.mem_of_find?_eq_some h
    simpa using ⟨o, hm, hd⟩

theorem checkJump_eq_ok_iff {s : JumpSite} :
    checkJump s = .ok () ↔ s.origins ≠ [] ∧ ∀ o ∈ s.origins, o.duplicated = false := by
  rw [checkJump, ← JumpSite.isResolved_iff]
  split
  case isTrue h => simp [h, checkOrigins_eq_ok_iff]
  case isFalse h => simp [h]

theorem checkCopy_eq_ok_iff {s : CopySite} :
    checkCopy s = .ok () ↔ (s.origins ≠ [] ∧ s.computed = false ∧ s.dynamic = false) ∧
      ∀ o ∈ s.origins, o.duplicated = false := by
  rw [checkCopy, ← CopySite.isResolved_iff]
  split
  case isTrue h => simp [CopySite.isResolved, h]
  split
  case isTrue h => simp [CopySite.isResolved, h]
  split
  case isTrue h => simp [h, checkOrigins_eq_ok_iff]
  case isFalse h => simp [h]

-- What a resolution makes of a jump: one that has an origin stays what it is, and any other gets
-- the push right before it.
inductive Completed (p : Program) (s : JumpSite) : JumpSite → Prop
  | kept (traced : s.origins ≠ []) : Completed p s s
  | rescued {push} (untraced : s.origins = []) (before : p.PushBefore s.pc push)
      (valid : p.isJumpdest push.value) :
      Completed p s ⟨s.pc, s.op, [⟨push.pc, false, .adjacent⟩], [push.value]⟩

section

variable {code : List UInt8} {s : JumpSite} {push : Instruction}
  (h : (Program.decode code).PushBefore s.pc push)

include h

theorem rescue_of_filter_eq_some {d : Nat}
    (hd : push.offset?.filter (Program.decode code).isJumpdest = some d) :
    rescue (.decode code) s = .ok (s.record ⟨push.pc, false, .adjacent⟩ (some d)) := by
  simp only [rescue, (Program.tiled_decode code).pushBefore_iff.mpr h, hd]

theorem rescue_of_filter_eq_none
    (hd : push.offset?.filter (Program.decode code).isJumpdest = none) :
    rescue (.decode code) s = .error (.invalidJump s.pc (.ofBytes push.immediate)) := by
  simp only [rescue, (Program.tiled_decode code).pushBefore_iff.mpr h, hd]

end

theorem rescue_eq_ok_iff {code : List UInt8} (hlen : code.length ≤ BigEndian.bound 8)
    {s s' : JumpSite} :
    rescue (.decode code) s = .ok s' ↔
      (∀ push, ¬(Program.decode code).PushBefore s.pc push) ∧ s' = s ∨
      ∃ push, (Program.decode code).PushBefore s.pc push ∧
        (Program.decode code).isJumpdest push.value ∧
        s' = s.record ⟨push.pc, false, .adjacent⟩ (some push.value) := by
  have hbefore {push : Instruction} := @(Program.tiled_decode code).pushBefore_iff _ s.pc push
  by_cases h : ∃ push, (Program.decode code).PushBefore s.pc push
  case neg =>
    have hnone : (((Program.decode code).indexOf? s.pc).bind (Program.decode code).before?).filter
        (·.op.isPush) = none :=
      Option.eq_none_iff_forall_ne_some.mpr fun push hpush => h ⟨push, hbefore.mp hpush⟩
    rw [not_exists] at h
    simp [rescue, hnone, h, @eq_comm _ s' s]
  case pos =>
    obtain ⟨push, h⟩ := h
    have hunique : ∀ push', (Program.decode code).PushBefore s.pc push' ↔ push' = push := by
      intro push'
      rw [← hbefore, hbefore.mpr h, Option.some.injEq, eq_comm]
    cases hd : push.offset?.filter (Program.decode code).isJumpdest with
    | none =>
      have hinvalid : ¬(Program.decode code).isJumpdest push.value := fun hvalid => by
        simp [(Program.offset?_filter_isJumpdest hlen).mpr ⟨hvalid, rfl⟩] at hd
      simp [rescue_of_filter_eq_none h hd, hunique, hinvalid]
    | some d =>
      obtain ⟨hvalid, rfl⟩ := (Program.offset?_filter_isJumpdest hlen).mp hd
      simp [rescue_of_filter_eq_some h hd, hunique, hvalid, @eq_comm _ s']

theorem completed_iff {code : List UInt8} (hlen : code.length ≤ BigEndian.bound 8)
    {s s' : JumpSite} (hs : s.origins = [] → s.destinations = []) :
    (if s.isResolved then .ok s else rescue (.decode code) s) = .ok s' ∧ checkJump s' = .ok () ↔
      (∀ o ∈ s.origins, o.duplicated = false) ∧ Completed (.decode code) s s' := by
  rw [checkJump_eq_ok_iff]
  by_cases h : s.origins = []
  case neg =>
    rw [if_pos (JumpSite.isResolved_iff.mpr h)]
    constructor
    case mp =>
      rintro ⟨hsame, -, hcheck⟩
      cases hsame
      exact ⟨hcheck, .kept h⟩
    case mpr =>
      rintro ⟨hcheck, _ | ⟨untraced⟩⟩
      case kept => exact ⟨rfl, h, hcheck⟩
      case rescued => exact absurd untraced h
  case pos =>
    rw [if_neg (by simp [JumpSite.isResolved_iff, h]), rescue_eq_ok_iff hlen]
    have hrecord (o : Origin) (d : Nat) : s.record o (some d) = ⟨s.pc, s.op, [o], [d]⟩ := by
      simp [JumpSite.record, Origin.insert, insertAscending, h, hs h]
    constructor
    case mp =>
      rintro ⟨⟨-, rfl⟩ | ⟨push, before, valid, rfl⟩, hne, -⟩
      case inl => exact absurd h hne
      case inr => exact ⟨by simp [h], hrecord _ _ ▸ .rescued h before valid⟩
    case mpr =>
      rintro ⟨-, traced | ⟨-, before, valid⟩⟩
      case kept => exact absurd h traced
      case rescued => exact ⟨.inr ⟨_, before, valid, (hrecord _ _).symm⟩, by simp, by simp⟩

theorem exists_completed_iff {s : JumpSite} :
    (∃ s', Completed p s s') ↔
      (s.origins = [] → ∃ push, p.PushBefore s.pc push ∧ p.isJumpdest push.value) := by
  constructor
  case mp =>
    rintro ⟨_, traced | ⟨_, before, valid⟩⟩ h
    case kept => exact absurd h traced
    case rescued => exact ⟨_, before, valid⟩
  case mpr =>
    intro h
    by_cases hs : s.origins = []
    case neg => exact ⟨s, .kept hs⟩
    case pos =>
      have ⟨_, before, valid⟩ := h hs
      exact ⟨_, .rescued hs before valid⟩

theorem length_filter_untraced (h : List.Forall₂ (Completed p) a.jumps r.jumps)
    (ht : ∀ s ∈ a.jumps, ∀ o ∈ s.origins, o.source = .traced) :
    (a.jumps.filter (·.origins.isEmpty)).length = r.rescued := by
  have h := (List.forall₂_and_left ..).mpr ⟨ht, h⟩
  refine length_filter_of_forall₂ (h.imp fun s s' => ?_)
  rintro ⟨ht, traced | ⟨untraced⟩⟩
  case kept =>
    have hany : s.origins.any (·.source = .adjacent) = false := by
      refine List.any_eq_false.mpr fun o ho => ?_
      simp [ht o ho]
    simpa [hany] using traced
  case rescued => simp [untraced]

theorem ofAnalysis_eq_ok_iff {code : List UInt8} (hlen : code.length ≤ BigEndian.bound 8)
    (hs : ∀ s ∈ a.jumps, s.origins = [] → s.destinations = []) :
    ofAnalysis (.decode code) a = .ok r ↔
      ((∀ s ∈ a.jumps, ∀ o ∈ s.origins, o.duplicated = false) ∧
        List.Forall₂ (Completed (.decode code)) a.jumps r.jumps) ∧
      (∀ s ∈ a.copies, checkCopy s = .ok ()) ∧ r.copies = a.copies ∧ r.stats = a.stats := by
  have hjumps (jumps : List JumpSite) :
      rescueAll (.decode code) a.jumps = .ok jumps ∧ (∀ s ∈ jumps, checkJump s = .ok ()) ↔
        (∀ s ∈ a.jumps, ∀ o ∈ s.origins, o.duplicated = false) ∧
          List.Forall₂ (Completed (.decode code)) a.jumps jumps := by
    rw [rescueAll_eq_ok_iff, forall₂_and_iff, ← List.forall₂_and_left]
    constructor
    all_goals
      intro h
      refine ((List.forall₂_and_left ..).mpr ⟨hs, h⟩).imp fun s s' ⟨hs, h⟩ => ?_
    case mp => exact (completed_iff hlen hs).mp h
    case mpr => exact (completed_iff hlen hs).mpr h
  rw [← hjumps, ofAnalysis]
  constructor
  case mp =>
    intro h
    have ⟨jumps, hrescue, h⟩ := bind_eq_ok_iff.mp h
    have ⟨_, hcheck, h⟩ := bind_eq_ok_iff.mp h
    have ⟨_, hcopies, h⟩ := bind_eq_ok_iff.mp h
    cases h
    exact ⟨⟨hrescue, forM_eq_ok_iff.mp hcheck⟩, forM_eq_ok_iff.mp hcopies, rfl, rfl⟩
  case mpr =>
    obtain ⟨jumps, copies, stats⟩ := r
    rintro ⟨⟨hrescue, hcheck⟩, hcopies, rfl, rfl⟩
    refine bind_eq_ok_iff.mpr ⟨jumps, hrescue, ?_⟩
    refine bind_eq_ok_iff.mpr ⟨(), forM_eq_ok_iff.mpr hcheck, ?_⟩
    exact bind_eq_ok_iff.mpr ⟨(), forM_eq_ok_iff.mpr hcopies, rfl⟩

end Resolution

structure Analysis.Resolvable (p : Program) (a : Analysis) : Prop where
  adjacent : ∀ s ∈ a.jumps, s.origins = [] →
    ∃ push, p.PushBefore s.pc push ∧ p.isJumpdest push.value
  jumps    : ∀ s ∈ a.jumps, ∀ o ∈ s.origins, o.duplicated = false
  copies   : ∀ s ∈ a.copies, ∀ o ∈ s.origins, o.duplicated = false
  offsets  : ∀ s ∈ a.copies, s.origins ≠ [] ∧ s.computed = false ∧ s.dynamic = false

-- A resolution takes exactly the analyses that are resolvable, and adds nothing to them but the
-- pushes right before the jumps that were never reached.
theorem resolves_exactly {code : List UInt8} (hlen : code.length ≤ BigEndian.bound 8)
    {a : Analysis} (ha : analyze (.decode code) = .ok a) :
    ((∃ r, Resolution.ofAnalysis (.decode code) a = .ok r) ↔ a.Resolvable (.decode code)) ∧
      ∀ r, Resolution.ofAnalysis (.decode code) a = .ok r →
        List.Forall₂ (Resolution.Completed (.decode code)) a.jumps r.jumps ∧
        r.copies = a.copies ∧ r.stats = a.stats ∧
        r.rescued = (a.jumps.filter (·.origins.isEmpty)).length := by
  have ht := Program.tiled_decode code
  have hs : ∀ s ∈ a.jumps, s.origins = [] → s.destinations = [] := by
    intro s hm ho
    refine List.eq_nil_iff_forall_not_mem.mpr fun d hd => ?_
    have ⟨_, pc, hpc, _⟩ := ((Exploration.genuine_of_run ht ha).jumps s hm).destinations d hd
    simp [ho] at hpc
  have hok {r} := Resolution.ofAnalysis_eq_ok_iff (r := r) hlen hs
  constructor
  case left =>
    constructor
    case mp =>
      rintro ⟨r, h⟩
      have ⟨⟨hjumps, hcompleted⟩, hcopies, _⟩ := hok.mp h
      refine ⟨fun s hm => ?_, hjumps, fun s hm => ?_, fun s hm => ?_⟩
      · exact Resolution.exists_completed_iff.mp (exists_forall₂_iff.mp ⟨_, hcompleted⟩ s hm)
      · exact (Resolution.checkCopy_eq_ok_iff.mp (hcopies s hm)).2
      · exact (Resolution.checkCopy_eq_ok_iff.mp (hcopies s hm)).1
    case mpr =>
      rintro ⟨hadjacent, hjumps, hcopies, hoffsets⟩
      have ⟨jumps, hcompleted⟩ := exists_forall₂_iff.mpr fun s hm =>
        Resolution.exists_completed_iff.mpr (hadjacent s hm)
      have hcheck : ∀ s ∈ a.copies, Resolution.checkCopy s = .ok () := fun s hm =>
        Resolution.checkCopy_eq_ok_iff.mpr ⟨hoffsets s hm, hcopies s hm⟩
      exact ⟨⟨jumps, a.copies, a.stats⟩, hok.mpr ⟨⟨hjumps, hcompleted⟩, hcheck, rfl, rfl⟩⟩
  case right =>
    intro r h
    have ⟨⟨_, hcompleted⟩, _, hcopies, hstats⟩ := hok.mp h
    have htraced := fun s hm => ((Exploration.followed_of_run ht ha).1 s hm).traced
    exact ⟨hcompleted, hcopies, hstats, (Resolution.length_filter_untraced hcompleted htraced).symm⟩

-- A jump over a stop, and another behind the stop that is never reached.
def strandedJump : List UInt8 :=
  [0x60, 0x03, 0x56, 0x5b, 0x00, 0x60, 0x03, 0x56]

theorem resolves_exactly_strandedJump :
    ∃ a r, analyze (.decode strandedJump) = .ok a ∧
      Resolution.ofAnalysis (.decode strandedJump) a = .ok r ∧
      (a.jumps.map (·.origins.isEmpty)) = [false, true] ∧ r.rescued = 1 := by
  have hdecode : Program.decode strandedJump = ⟨[
      ⟨0, .push 1, some [0x03]⟩, ⟨2, .jump, none⟩, ⟨3, .jumpdest, none⟩, ⟨4, .stop, none⟩,
      ⟨5, .push 1, some [0x03]⟩, ⟨7, .jump, none⟩]⟩ := by
    cbv
  have ha : analyze (.decode strandedJump) = .ok ⟨[
      ⟨2, .jump, [⟨0, false, .traced⟩], [3]⟩, ⟨7, .jump, [], []⟩], [], ⟨4, 0, 0, 0⟩⟩ := by
    rw [hdecode]
    decide +kernel
  obtain ⟨hiff, hok⟩ := resolves_exactly (by decide) ha
  have hbefore : (Program.decode strandedJump).PushBefore 7 ⟨5, .push 1, some [0x03]⟩ := by
    rw [hdecode]
    exact ⟨4, ⟨7, .jump, none⟩, rfl, rfl, rfl, rfl⟩
  have hvalid : (Program.decode strandedJump).isJumpdest 3 := by
    rw [hdecode]
    decide
  obtain ⟨r, hr⟩ := hiff.mpr ⟨by simpa using ⟨_, hbefore, hvalid⟩, by simp, by simp, by simp⟩
  exact ⟨_, r, ha, hr, rfl, (hok r hr).2.2.2⟩

end Splice
