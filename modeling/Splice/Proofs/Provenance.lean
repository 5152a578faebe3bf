import Splice.Proofs.Exploration
import Splice.Resolution

namespace Splice

def Program.Pushes (p : Program) (pc n : Nat) : Prop :=
  ∃ ins, p.atPc? pc = some ins ∧ ins.op.isPush ∧ ins.value = n

theorem Instruction.toNat_ofBytes_immediate {ins : Instruction} (h : ins.op.width ≤ 32) :
    (Word.ofBytes ins.immediate).toNat = ins.value := by
  rw [Word.toNat_ofBytes]
  exact Nat.mod_eq_of_lt (Nat.lt_of_lt_of_le ins.value_lt (BigEndian.bound_le_bound h))

-- A word that claims to come from a push does so.
def Value.Genuine (p : Program) (v : Value) : Prop :=
  ∀ pc w, v.known = .pushed pc w → p.Pushes pc w.toNat

def Stack.Genuine (p : Program) (s : Stack) : Prop :=
  ∀ v ∈ s.slots, v.Genuine p

def Observation.Genuine (p : Program) : Observation → Prop
  | jump _ origin destination => ∃ n, p.Pushes origin.pc n ∧
    ∀ d, destination = some d → d = n ∧ p.isJumpdest d
  | copy _ source => ∀ origin, source = .pushed origin → ∃ n, p.Pushes origin.pc n

namespace Value

variable {p : Program}

theorem Genuine.copied {v : Value} (h : v.Genuine p) : v.copied.Genuine p :=
  h

theorem genuine_ofOption (w : Option Word) : (ofOption w).Genuine p := by
  cases w <;> rintro _ _ ⟨⟩

theorem genuine_constant (w : Word) : (constant w).Genuine p := by
  intro _ _ he
  cases he

end Value

theorem Fold.exists_of_evaluate {op : Opcode} {inputs : List Value} {v : Value}
    (h : evaluate op inputs = .ok v) :
    ∃ w, word? op (fun i => inputs[i]?.bind Value.word?) = .ok w ∧ v = .ofOption w := by
  simp only [evaluate] at h
  cases hw : word? op (fun i => inputs[i]?.bind Value.word?) with
  | error e => simp [hw, Except.map] at h
  | ok w => exact ⟨w, rfl, by simpa [hw, Except.map, eq_comm] using h⟩

namespace Stack.Genuine

variable {p : Program} {s : Stack}

theorem set (h : s.Genuine p) {v : Value} (hv : v.Genuine p) (i : Nat) : (s.set i v).Genuine p := by
  intro u hu
  rcases List.mem_or_eq_of_mem_set hu with hu | rfl
  case inl => exact h u hu
  case inr => exact hv

theorem cons (h : s.Genuine p) {v : Value} (hv : v.Genuine p) : Genuine p ⟨v :: s.slots⟩ :=
  List.forall_mem_cons.mpr ⟨hv, h⟩

theorem drop (h : s.Genuine p) (n : Nat) : Genuine p ⟨s.slots.drop n⟩ :=
  fun v hv => h v (List.mem_of_mem_drop hv)

theorem getElem? (h : s.Genuine p) {i : Nat} {v : Value} (hv : s.slots[i]? = some v) :
    v.Genuine p :=
  h v (List.mem_of_getElem? hv)

end Stack.Genuine

namespace Step

variable {p : Program}

theorem genuine_copySource {offset : Value} (h : offset.Genuine p) (pc : Nat) :
    Observation.Genuine p (.copy pc (copySource offset)) := by
  intro origin ho
  simp only [copySource] at ho
  split at ho
  case h_3 o w hk =>
    cases ho
    exact ⟨_, h o w hk⟩
  all_goals cases ho

theorem Does.genuine {ins : Instruction} {here : Nat} {s : Stack} {e : Effect}
    (h : Does p ins here s e) (hins : p.atPc? ins.pc = some ins) (hs : s.Genuine p) :
    e.stack.Genuine p ∧ ∀ o, e.seen = some o → o.Genuine p := by
  cases h with
  | push h width =>
    refine ⟨hs.cons ?_, by simp⟩
    intro _ _ he
    cases he
    exact ⟨ins, hins, h, (Instruction.toNat_ofBytes_immediate width).symm⟩
  | dup _ source =>
    have hv := (hs.getElem? source).copied
    exact ⟨(hs.set hv _).cons hv, by simp⟩
  | swap _ first second =>
    exact ⟨(hs.set (hs.getElem? second) 0).set (hs.getElem? first) _, by simp⟩
  | jumpdest => exact ⟨hs, by simp⟩
  | jump _ slots known valid =>
    refine ⟨by simpa [slots] using hs.drop 1, ?_⟩
    intro _ he
    cases he
    exact ⟨_, hs _ (by simp [slots]) _ _ known, by simp [valid]⟩
  | take _ slots _ _ known valid =>
    refine ⟨by simpa [slots] using hs.drop 2, ?_⟩
    intro _ he
    cases he
    exact ⟨_, hs _ (by simp [slots]) _ _ known, by simp [valid]⟩
  | pass _ slots _ known =>
    refine ⟨by simpa [slots] using hs.drop 2, ?_⟩
    intro _ he
    cases he
    exact ⟨_, hs _ (by simp [slots]) _ _ known, by simp⟩
  | copy _ slots =>
    refine ⟨by simpa [slots] using hs.drop 3, ?_⟩
    intro _ he
    cases he
    exact genuine_copySource (hs _ (by simp [slots])) _
  | compute _ _ _ result =>
    obtain ⟨w, -, rfl⟩ := Fold.exists_of_evaluate result
    exact ⟨(hs.drop _).cons (Value.genuine_ofOption w), by simp⟩
  | consume => exact ⟨hs.drop _, by simp⟩

end Step

namespace Branch

variable {p : Program} {b b' : Branch} {o : Observation}

theorem Move.genuine (ht : p.Tiled) {seen : Option Observation} (h : Move p b seen b')
    (hs : b.stack.Genuine p) : b'.stack.Genuine p ∧ ∀ o, seen = some o → o.Genuine p := by
  cases h with
  | step get _ step =>
    have ⟨_, does, _⟩ := Step.does_of_step step
    exact does.genuine (ht.atPc?_of_get? get) hs
  | take | pass => exact ⟨hs.set (Value.genuine_constant _) 1, by simp⟩

theorem Sees.genuine (ht : p.Tiled) (h : Sees p b o) (hs : b.stack.Genuine p) : o.Genuine p := by
  induction h with
  | now move => exact (move.genuine ht hs).2 _ rfl
  | later move _ ih => exact ih (move.genuine ht hs).1

end Branch

namespace Origin

theorem mem_pcs_insert {o : Origin} {os : List Origin} {pc : Nat} :
    pc ∈ (o.insert os).map (·.pc) ↔ pc = o.pc ∨ pc ∈ os.map (·.pc) := by
  rw [pcs_insert, mem_insertAscending_iff]

end Origin

structure JumpSite.Genuine (p : Program) (s : JumpSite) : Prop where
  placed       : ∃ ins, p.atPc? s.pc = some ins ∧ ins.op = s.op ∧ ins.op.isJump
  origins      : ∀ pc ∈ s.origins.map (·.pc), ∃ n, p.Pushes pc n
  destinations : ∀ d ∈ s.destinations,
    p.isJumpdest d ∧ ∃ pc ∈ s.origins.map (·.pc), p.Pushes pc d

structure CopySite.Genuine (p : Program) (s : CopySite) : Prop where
  placed  : ∃ ins, p.atPc? s.pc = some ins ∧ ins.op = .codecopy
  origins : ∀ pc ∈ s.origins.map (·.pc), ∃ n, p.Pushes pc n

variable {p : Program}

theorem JumpSite.Genuine.record {s : JumpSite} (h : s.Genuine p) {pc : Nat} {o : Origin}
    {d : Option Nat} (hs : Observation.Genuine p (.jump pc o d)) : (s.record o d).Genuine p where
  placed := by simpa using h.placed
  origins q hq := by
    have ⟨n, hn, _⟩ := hs
    rw [origins_record, Origin.mem_pcs_insert] at hq
    rcases hq with rfl | hq
    case inl => exact ⟨n, hn⟩
    case inr => exact h.origins q hq
  destinations n hm := by
    have ⟨m, hpush, hd⟩ := hs
    simp only [origins_record, Origin.mem_pcs_insert]
    rcases mem_destinations_record.mp hm with hd' | hm
    case inl =>
      obtain ⟨rfl, hv⟩ := hd n hd'
      exact ⟨hv, o.pc, .inl rfl, hpush⟩
    case inr =>
      have ⟨hv, q, hq, hpush⟩ := h.destinations n hm
      exact ⟨hv, q, .inr hq, hpush⟩

theorem CopySite.Genuine.record {s : CopySite} (h : s.Genuine p) {pc : Nat} {c : CopySource}
    (hs : Observation.Genuine p (.copy pc c)) : (s.record c).Genuine p := by
  cases c with
  | pushed o =>
    refine ⟨h.placed, fun q hq => ?_⟩
    rw [CopySite.record, Origin.mem_pcs_insert] at hq
    rcases hq with rfl | hq
    case inl => exact hs o rfl
    case inr => exact h.origins q hq
  | computed | dynamic => exact ⟨h.placed, h.origins⟩

structure Analysis.Genuine (p : Program) (a : Analysis) : Prop where
  jumps  : ∀ s ∈ a.jumps, s.Genuine p
  copies : ∀ s ∈ a.copies, s.Genuine p

namespace Analysis

theorem genuine_blank (ht : p.Tiled) : (blank p).Genuine p where
  jumps s hs := by
    obtain ⟨ins, hm, rfl⟩ := List.mem_map.mp hs
    have ⟨hm, hj⟩ := List.mem_filter.mp hm
    exact ⟨⟨ins, ht.atPc?_eq_some_iff.mpr ⟨hm, rfl⟩, rfl, hj⟩, by simp [JumpSite.fresh],
      by simp [JumpSite.fresh]⟩
  copies s hs := by
    obtain ⟨ins, hm, rfl⟩ := List.mem_map.mp hs
    have ⟨hm, hj⟩ := List.mem_filter.mp hm
    exact ⟨⟨ins, ht.atPc?_eq_some_iff.mpr ⟨hm, rfl⟩, by simpa using hj⟩, by simp [CopySite.fresh]⟩

variable {a : Analysis}

theorem Genuine.withStats (h : a.Genuine p) (t : Stats) : (a.withStats t).Genuine p :=
  ⟨h.jumps, h.copies⟩

theorem Genuine.record (h : a.Genuine p) {o : Observation} (ho : o.Genuine p) :
    (a.record o).Genuine p := by
  cases o with
  | jump pc o d =>
    refine ⟨fun s hs => ?_, h.copies⟩
    obtain ⟨s, hm, rfl⟩ := List.mem_map.mp hs
    split
    · exact (h.jumps s hm).record ho
    · exact h.jumps s hm
  | copy pc c =>
    refine ⟨h.jumps, fun s hs => ?_⟩
    obtain ⟨s, hm, rfl⟩ := List.mem_map.mp hs
    split
    · exact (h.copies s hm).record ho
    · exact h.copies s hm

theorem Genuine.recordAll (h : a.Genuine p) {seen : List Observation}
    (hs : ∀ o ∈ seen, o.Genuine p) : (a.recordAll seen).Genuine p := by
  induction seen generalizing a with
  | nil => exact h
  | cons o seen ih =>
    have ⟨ho, hs⟩ := List.forall_mem_cons.mp hs
    exact ih (h.record ho) hs

structure Complete (p : Program) (a : Analysis) : Prop where
  jumps  : ∀ ins ∈ p.instructions, ins.op.isJump → ∃ s ∈ a.jumps, s.pc = ins.pc
  copies : ∀ ins ∈ p.instructions, ins.op = .codecopy → ∃ s ∈ a.copies, s.pc = ins.pc

theorem complete_blank : (blank p).Complete p where
  jumps ins hm hj :=
    ⟨.fresh ins.pc ins.op, List.mem_map.mpr ⟨ins, List.mem_filter.mpr ⟨hm, hj⟩, rfl⟩, rfl⟩
  copies ins hm hc :=
    ⟨.fresh ins.pc, List.mem_map.mpr ⟨ins, List.mem_filter.mpr ⟨hm, by simpa using hc⟩, rfl⟩, rfl⟩

theorem Complete.record (h : a.Complete p) (o : Observation) : (a.record o).Complete p := by
  cases o with
  | jump pc o d =>
    refine ⟨fun ins hm hj => ?_, h.copies⟩
    have ⟨s, hs, hpc⟩ := h.jumps ins hm hj
    exact ⟨_, List.mem_map_of_mem hs, by split <;> simp [hpc]⟩
  | copy pc c =>
    refine ⟨h.jumps, fun ins hm hc => ?_⟩
    have ⟨s, hs, hpc⟩ := h.copies ins hm hc
    exact ⟨_, List.mem_map_of_mem hs, by split <;> simp [hpc]⟩

theorem Complete.recordAll (h : a.Complete p) (seen : List Observation) :
    (a.recordAll seen).Complete p := by
  induction seen generalizing a with
  | nil => exact h
  | cons o seen ih => exact ih (h.record o)

end Analysis

namespace Exploration

variable {policy : Policy} {a : Analysis}

theorem genuine_of_run (ht : p.Tiled) (h : run policy p = .ok a) : a.Genuine p := by
  have ⟨log, h⟩ := exists_history_of_run h
  have ⟨seen, ha, hs⟩ := h.exists_recordAll
  rw [ha]
  refine ((Analysis.genuine_blank ht).recordAll fun o ho => ?_).withStats _
  exact (hs o ho).genuine ht (by simp [root, Stack.Genuine, Stack.empty])

theorem complete_of_run (h : run policy p = .ok a) : a.Complete p := by
  have ⟨log, h⟩ := exists_history_of_run h
  have ⟨seen, ha, _⟩ := h.exists_recordAll
  have := Analysis.complete_blank.recordAll (p := p) seen
  rw [ha]
  exact ⟨this.jumps, this.copies⟩

end Exploration

namespace Resolution

theorem genuine_rescue (ht : p.Tiled) {s s' : JumpSite} (hs : s.Genuine p)
    (h : rescue p s = .ok s') : s'.Genuine p := by
  simp only [rescue] at h
  split at h
  case h_1 =>
    cases h
    exact hs
  case h_2 push hpush =>
    split at h
    case h_1 => simp at h
    case h_2 d hd =>
      cases h
      have ⟨hpush, hp⟩ := Option.filter_eq_some_iff.mp hpush
      have ⟨i, hi, hb⟩ := Option.bind_eq_some_iff.mp hpush
      have ⟨ho, hd⟩ := Option.filter_eq_some_iff.mp hd
      have hat : p.atPc? push.pc = some push := by
        cases i with
        | zero => simp [Program.before?] at hb
        | succ i => exact ht.atPc?_of_get? hb
      have hvalue : push.value = d := (Instruction.offset?_eq_some_iff.mp ho).2
      have hrescued : Observation.Genuine p (.jump s.pc ⟨push.pc, false, .adjacent⟩ (some d)) := by
        refine ⟨d, ⟨push, hat, hp, hvalue⟩, ?_⟩
        intro _ he
        cases he
        exact ⟨rfl, hd⟩
      exact hs.record hrescued

end Resolution
end Splice
