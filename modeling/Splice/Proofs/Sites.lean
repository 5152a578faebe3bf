import Splice.Proofs.Provenance

namespace Splice

namespace Program

variable {p : Program} {pc : Nat}

def HasPush (p : Program) (pc : Nat) : Prop :=
  ∃ ins, p.atPc? pc = some ins ∧ ins.op.isPush ∧ ins.op.width ≤ 32

theorem Pushes.unique {n m : Nat} (h : p.Pushes pc n) (h' : p.Pushes pc m) : n = m := by
  obtain ⟨ins, hins, -, rfl⟩ := h
  obtain ⟨ins', hins', -, rfl⟩ := h'
  rw [Option.some.inj (hins.symm.trans hins')]

theorem Pushes.hasPush {code : List UInt8} {n : Nat} (h : (decode code).Pushes pc n) :
    (decode code).HasPush pc := by
  obtain ⟨ins, hins, hpush, -⟩ := h
  have ⟨b, hb⟩ := exists_ofByte_of_mem_decodeFrom (List.mem_of_find?_eq_some hins)
  exact ⟨ins, hins, hpush, hb ▸ Opcode.width_ofByte_le b⟩

end Program

namespace Observation

-- Only a JUMPI lets an origin be seen without a destination, when it is passed by.
def Followed (p : Program) : Observation → Prop
  | jump pc _ none => ∃ ins, p.atPc? pc = some ins ∧ ins.op = .jumpi
  | jump _ _ (some _) | copy .. => True

end Observation

variable {p : Program}

theorem Step.Does.followed {ins : Instruction} {here : Nat} {s : Stack} {e : Effect}
    (h : Does p ins here s e) (hins : p.atPc? ins.pc = some ins) {o : Observation}
    (ho : e.seen = some o) : o.Followed p := by
  cases h with
  | jump | take | copy =>
    cases ho
    trivial
  | pass hop =>
    cases ho
    exact ⟨ins, hins, hop⟩
  | _ => cases ho

namespace Branch

variable {b b' : Branch} {o : Observation}

theorem Sees.followed (ht : p.Tiled) (h : Sees p b o) : o.Followed p := by
  induction h with
  | now move =>
    cases move with
    | step get _ step =>
      have ⟨_, does, _⟩ := Step.does_of_step step
      exact does.followed (ht.atPc?_of_get? get) rfl
  | later _ _ ih => exact ih

theorem Reaches.genuine (ht : p.Tiled) (h : Reaches p b b') (hs : b.stack.Genuine p) :
    b'.stack.Genuine p := by
  induction h with
  | refl => exact hs
  | tail _ move ih =>
    have ⟨_, move⟩ := move
    exact (move.genuine ht ih).1

end Branch

structure JumpSite.Followed (p : Program) (s : JumpSite) : Prop where
  traced  : ∀ o ∈ s.origins, o.source = .traced
  targets : s.op = .jump → ∀ pc ∈ s.origins.map (·.pc), ∃ d ∈ s.destinations, p.Pushes pc d

theorem JumpSite.Followed.record {s : JumpSite} (h : s.Followed p) (hs : s.Genuine p) {o : Origin}
    {d : Option Nat} (ht : o.source = .traced)
    (hgenuine : Observation.Genuine p (.jump s.pc o d))
    (hfollowed : Observation.Followed p (.jump s.pc o d)) : (s.record o d).Followed p where
  traced := by
    rw [origins_record]
    exact Origin.source_of_mem_insert ht h.traced
  targets hop q hq := by
    rw [op_record] at hop
    rw [origins_record, Origin.mem_pcs_insert] at hq
    rcases hq with rfl | hq
    case inr =>
      have ⟨n, hn, hpush⟩ := h.targets hop q hq
      exact ⟨n, mem_destinations_record.mpr (.inr hn), hpush⟩
    have ⟨n, hpush, hd⟩ := hgenuine
    cases d with
    | some d =>
      obtain ⟨rfl, -⟩ := hd d rfl
      exact ⟨d, mem_destinations_record.mpr (.inl rfl), hpush⟩
    | none =>
      -- The site would be a JUMPI.
      obtain ⟨ins, hins, hjumpi⟩ := hfollowed
      obtain ⟨ins', hins', hop', -⟩ := hs.placed
      cases hins.symm.trans hins'
      simp [← hop', hjumpi] at hop

namespace Analysis

variable {a : Analysis} {seen : List Observation}

theorem forall_jumps_recordAll {P : JumpSite → Prop} (h : ∀ s ∈ a.jumps, P s)
    (step : ∀ pc o d, .jump pc o d ∈ seen → ∀ s, s.pc = pc → P s → P (s.record o d)) :
    ∀ s ∈ (a.recordAll seen).jumps, P s := by
  induction seen generalizing a with
  | nil => exact h
  | cons o seen ih =>
    refine ih (fun s hs => ?_) fun pc o d hm => step pc o d (List.mem_cons_of_mem _ hm)
    cases o with
    | copy pc c => exact h s hs
    | jump pc o d =>
      obtain ⟨s, hm, rfl⟩ := List.mem_map.mp hs
      split
      case isTrue hpc => exact step pc o d List.mem_cons_self s hpc (h s hm)
      case isFalse => exact h s hm

theorem forall_copies_recordAll {P : CopySite → Prop} (h : ∀ s ∈ a.copies, P s)
    (step : ∀ pc c, .copy pc c ∈ seen → ∀ s, s.pc = pc → P s → P (s.record c)) :
    ∀ s ∈ (a.recordAll seen).copies, P s := by
  induction seen generalizing a with
  | nil => exact h
  | cons o seen ih =>
    refine ih (fun s hs => ?_) fun pc c hm => step pc c (List.mem_cons_of_mem _ hm)
    cases o with
    | jump pc o d => exact h s hs
    | copy pc c =>
      obtain ⟨s, hm, rfl⟩ := List.mem_map.mp hs
      split
      case isTrue hpc => exact step pc c List.mem_cons_self s hpc (h s hm)
      case isFalse => exact h s hm

def jumpPlaces (a : Analysis) : List (Nat × Opcode) :=
  a.jumps.map fun s => (s.pc, s.op)

def copyPlaces (a : Analysis) : List Nat :=
  a.copies.map (·.pc)

@[simp]
theorem jumpPlaces_record (a : Analysis) (o : Observation) :
    (a.record o).jumpPlaces = a.jumpPlaces := by
  cases o with
  | copy => rfl
  | jump pc o d =>
    simp only [jumpPlaces, record, List.map_map]
    refine List.map_congr_left fun s _ => ?_
    rw [Function.comp_apply]
    split <;> simp

@[simp]
theorem copyPlaces_record (a : Analysis) (o : Observation) :
    (a.record o).copyPlaces = a.copyPlaces := by
  cases o with
  | jump => rfl
  | copy pc c =>
    simp only [copyPlaces, record, List.map_map]
    refine List.map_congr_left fun s _ => ?_
    rw [Function.comp_apply]
    split <;> simp

theorem jumpPlaces_recordAll : (a.recordAll seen).jumpPlaces = a.jumpPlaces := by
  induction seen generalizing a with
  | nil => rfl
  | cons o seen ih => rw [recordAll_cons, ih, jumpPlaces_record]

theorem copyPlaces_recordAll : (a.recordAll seen).copyPlaces = a.copyPlaces := by
  induction seen generalizing a with
  | nil => rfl
  | cons o seen ih => rw [recordAll_cons, ih, copyPlaces_record]

theorem jumpPlaces_blank :
    (blank p).jumpPlaces =
      (p.instructions.filter (·.op.isJump)).map fun ins => (ins.pc, ins.op) := by
  simp [jumpPlaces, blank, JumpSite.fresh, Function.comp_def]

theorem copyPlaces_blank : (blank p).copyPlaces = p.pcs (· = .codecopy) := by
  simp [copyPlaces, blank, CopySite.fresh, Program.pcs, Function.comp_def]

end Analysis

namespace Exploration

variable {policy : Policy} {a : Analysis}

theorem places_of_run (h : run policy p = .ok a) :
    a.jumpPlaces = (p.instructions.filter (·.op.isJump)).map (fun ins => (ins.pc, ins.op)) ∧
      a.copyPlaces = p.pcs (· = .codecopy) := by
  have ⟨log, h⟩ := exists_history_of_run h
  have ⟨seen, ha, _⟩ := h.exists_recordAll
  rw [ha]
  exact ⟨Analysis.jumpPlaces_recordAll.trans Analysis.jumpPlaces_blank,
    Analysis.copyPlaces_recordAll.trans Analysis.copyPlaces_blank⟩

theorem genuine_root (policy : Policy) : (root policy).stack.Genuine p := by
  simp [root, Stack.Genuine, Stack.empty]

theorem followed_of_run (ht : p.Tiled) (h : run policy p = .ok a) :
    (∀ s ∈ a.jumps, s.Followed p) ∧ ∀ s ∈ a.copies, ∀ o ∈ s.origins, o.source = .traced := by
  have ⟨log, h⟩ := exists_history_of_run h
  have ⟨seen, ha, hs⟩ := h.exists_recordAll
  rw [ha]
  have hgenuine {o} (ho : o ∈ seen) : o.Genuine p := (hs o ho).genuine ht (genuine_root policy)
  constructor
  · have hall : ∀ s ∈ ((Analysis.blank p).recordAll seen).jumps, s.Genuine p ∧ s.Followed p := by
      refine Analysis.forall_jumps_recordAll (fun s hm => ?_) fun pc o d ho s hpc hsite => ?_
      · refine ⟨(Analysis.genuine_blank ht).jumps s hm, ?_⟩
        obtain ⟨ins, -, rfl⟩ := List.mem_map.mp hm
        exact ⟨by simp [JumpSite.fresh], by simp [JumpSite.fresh]⟩
      · subst hpc
        exact ⟨hsite.1.record (hgenuine ho),
          hsite.2.record hsite.1 (hs _ ho).traced (hgenuine ho) ((hs _ ho).followed ht)⟩
    exact fun s hm => (hall s hm).2
  · refine Analysis.forall_copies_recordAll (fun s hm => ?_) fun pc c ho s _ hsite => ?_
    · obtain ⟨ins, -, rfl⟩ := List.mem_map.mp hm
      simp [CopySite.fresh]
    · cases c with
      | pushed o => exact Origin.source_of_mem_insert (hs _ ho).traced hsite
      | computed | dynamic => exact hsite

end Exploration

structure JumpSite.Attested (p : Program) (s : JumpSite) : Prop where
  origins      : ∀ o ∈ s.origins, o.source = .traced ∧ p.HasPush o.pc
  destinations : ∀ d ∈ s.destinations, p.isJumpdest d ∧ ∃ o ∈ s.origins, p.Pushes o.pc d
  jump         : s.op = .jump → ∀ n, n ∈ s.destinations ↔ ∃ o ∈ s.origins, p.Pushes o.pc n

theorem JumpSite.Followed.attested {code : List UInt8} {s : JumpSite}
    (h : s.Followed (.decode code)) (hs : s.Genuine (.decode code)) :
    s.Attested (.decode code) where
  origins o ho := by
    have ⟨_, hpush⟩ := hs.origins o.pc (List.mem_map_of_mem ho)
    exact ⟨h.traced o ho, hpush.hasPush⟩
  destinations d hd := by
    have ⟨hvalid, pc, hpc, hpush⟩ := hs.destinations d hd
    obtain ⟨o, ho, rfl⟩ := List.mem_map.mp hpc
    exact ⟨hvalid, o, ho, hpush⟩
  jump hop n := by
    constructor
    case mp =>
      intro hn
      have ⟨_, pc, hpc, hpush⟩ := hs.destinations n hn
      obtain ⟨o, ho, rfl⟩ := List.mem_map.mp hpc
      exact ⟨o, ho, hpush⟩
    case mpr =>
      rintro ⟨o, ho, hpush⟩
      have ⟨d, hd, hpush'⟩ := h.targets hop o.pc (List.mem_map_of_mem ho)
      exact hpush.unique hpush' ▸ hd

-- An analysis has the sites of its program, one for each, and nothing that it says of them is made
-- up: on no path of an exploration does a word claim an origin that did not push it.
theorem sites_attested {code : List UInt8} {a : Analysis} (h : analyze (.decode code) = .ok a) :
    a.jumps.map (fun s => (s.pc, s.op)) =
        ((Program.decode code).instructions.filter (·.op.isJump)).map
          (fun ins => (ins.pc, ins.op)) ∧
      a.copies.map (·.pc) =
        ((Program.decode code).instructions.filter (·.op = .codecopy)).map (·.pc) ∧
      (∀ s ∈ a.jumps, s.Attested (.decode code)) ∧
      (∀ s ∈ a.copies, ∀ o ∈ s.origins, o.source = .traced ∧ (Program.decode code).HasPush o.pc) ∧
      ∀ b, Branch.Reaches (.decode code) (Exploration.root .standard) b →
        ∀ v ∈ b.stack.slots, ∀ pc w, v.known = .pushed pc w →
          (Program.decode code).Pushes pc w.toNat := by
  have ht := Program.tiled_decode code
  have ⟨hjumps, hcopies⟩ := Exploration.places_of_run h
  have hgenuine := Exploration.genuine_of_run ht h
  have ⟨hfollowed, htraced⟩ := Exploration.followed_of_run ht h
  refine ⟨hjumps, hcopies, fun s hs => ?_, fun s hs o ho => ?_, fun b hb => ?_⟩
  · exact (hfollowed s hs).attested (hgenuine.jumps s hs)
  · have ⟨_, hpush⟩ := (hgenuine.copies s hs).origins o.pc (List.mem_map_of_mem ho)
    exact ⟨htraced s hs o ho, hpush.hasPush⟩
  · exact hb.genuine ht (Exploration.genuine_root .standard)

-- A routine that is called from two places and returns to either.
def calledTwice : List UInt8 :=
  [0x60, 0x05, 0x60, 0x0b, 0x56, 0x5b, 0x60, 0x0d, 0x60, 0x0b, 0x56, 0x5b, 0x56, 0x5b]

theorem sites_attested_calledTwice :
    ∃ a, analyze (.decode calledTwice) = .ok a ∧
      (∃ s ∈ a.jumps, s.op = .jump ∧ s.origins.map (·.pc) = [0, 6] ∧ s.destinations = [5, 13]) ∧
      ∀ s ∈ a.jumps, s.Attested (.decode calledTwice) := by
  have hdecode : Program.decode calledTwice = ⟨[
      ⟨0, .push 1, some [0x05]⟩, ⟨2, .push 1, some [0x0b]⟩, ⟨4, .jump, none⟩, ⟨5, .jumpdest, none⟩,
      ⟨6, .push 1, some [0x0d]⟩, ⟨8, .push 1, some [0x0b]⟩, ⟨10, .jump, none⟩,
      ⟨11, .jumpdest, none⟩, ⟨12, .jump, none⟩, ⟨13, .jumpdest, none⟩]⟩ := by
    cbv
  have h : analyze (.decode calledTwice) = .ok ⟨[
      ⟨4, .jump, [⟨2, false, .traced⟩], [11]⟩, ⟨10, .jump, [⟨8, false, .traced⟩], [11]⟩,
      ⟨12, .jump, [⟨0, false, .traced⟩, ⟨6, false, .traced⟩], [5, 13]⟩], [], ⟨12, 0, 0, 0⟩⟩ := by
    rw [hdecode]
    decide +kernel
  exact ⟨_, h, ⟨_, .tail _ (.tail _ (.head _)), rfl, rfl, rfl⟩, (sites_attested h).2.2.1⟩

end Splice
