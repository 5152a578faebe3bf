import Splice.Proofs.Machine
import Splice.Proofs.Provenance

namespace Splice

section

variable {α β : Type} {R : α → β → Prop} {as : List α} {bs : List β}

theorem forall₂_getElem? (h : List.Forall₂ R as bs) {i : Nat} {a : α} (ha : as[i]? = some a) :
    ∃ b, bs[i]? = some b ∧ R a b := by
  induction h generalizing i with
  | nil => simp at ha
  | @cons a b as bs hab _ ih =>
    cases i with
    | zero =>
      obtain rfl : a = _ := by simpa using ha
      exact ⟨b, rfl, hab⟩
    | succ i => exact ih (by simpa using ha)

theorem forall₂_set (h : List.Forall₂ R as bs) {a : α} {b : β} (hab : R a b) (i : Nat) :
    List.Forall₂ R (as.set i a) (bs.set i b) := by
  induction h generalizing i with
  | nil => simp
  | cons hab' h ih =>
    cases i with
    | zero => exact .cons hab h
    | succ i => exact .cons hab' (ih i)

end

namespace Value

variable {v : Value} {pc : Nat} {w : Word}

theorem word?_of_known (h : v.known = .pushed pc w) : v.word? = some w := by
  simp [word?, h]

theorem origin?_of_known (h : v.known = .pushed pc w) : v.origin? = some pc := by
  simp [origin?, h]

end Value

namespace Machine

-- What is known of a slot holds of the word there.
structure Slot.Follows (v : Value) (c : Slot) : Prop where
  word   : ∀ w, v.word? = some w → c.word = w
  origin : c.origin = v.origin?
  copied : c.copied = v.duplicated

theorem Slot.Follows.copy {v : Value} {c : Slot} (h : Follows v c) : Follows v.copied c.copy :=
  ⟨h.word, h.origin, rfl⟩

def Follow (s : Stack) (slots : List Slot) : Prop :=
  List.Forall₂ Slot.Follows s.slots slots

-- The condition of a conditional jump matters only in being zero or not.
inductive Alike (ins : Instruction) : List Slot → List Slot → Prop
  | refl (slots) : Alike ins slots slots
  | condition {target c c' rest} (h : ins.op = .jumpi) (zero : c.word = 0 ↔ c'.word = 0) :
    Alike ins (target :: c :: rest) (target :: c' :: rest)

variable {p : Program} {answer : Word} {ins : Instruction} {slots slots' out : List Slot}
  {next : Nat}

theorem Executes.alike (h : Executes p answer ins slots out next) (ha : Alike ins slots slots') :
    Executes p answer ins slots' out next := by
  cases ha with
  | refl => exact h
  | condition hj zero =>
    cases h with
    | push h | swap h | dup h | jump h | compute h | consume h =>
      simp [hj, Opcode.isPush, Opcode.isOrdinary] at h
    | take h holds valid => exact .take h (mt zero.mpr holds) valid
    | pass h fails => exact .pass h (zero.mp fails)

theorem atPc?_of_indexOf? (ht : p.Tiled) {pc i : Nat} (h : p.indexOf? pc = some i) :
    p.atPc? pc = p.get? i := by
  obtain ⟨ins, hi, rfl⟩ := ht.indexOf?_eq_some_iff.mp h
  rw [ht.atPc?_of_get? hi, hi]

theorem Follow.evaluate {s : Stack} (h : Follow s slots) {op : Opcode} {n : Nat} {v : Value}
    (hv : Fold.evaluate op (s.slots.take n) = .ok v) (hn : op.inputs = n) (hl : n ≤ slots.length) :
    Slot.Follows v
      ⟨(compute op ((slots.take n).map (·.word))).getD answer, none, false⟩ := by
  obtain ⟨w, hw, rfl⟩ := Fold.exists_of_evaluate hv
  refine ⟨fun x hx => ?_, by simp, by simp⟩
  obtain rfl : w = some x := by simpa using hx
  have hc : compute op ((slots.take n).map (·.word)) = some x := by
    refine compute_of_word? (fun i y hy => ?_) hw (by simp [hn, hl])
    have ⟨u, hu, hy⟩ := Option.bind_eq_some_iff.mp hy
    have ⟨c, hc, hf⟩ := forall₂_getElem? (List.forall₂_take n h) hu
    rw [List.getElem?_map, hc, Option.map_some, hf.word y hy]
  rw [hc]
  rfl

theorem executes_of_does (ht : p.Tiled) {here : Nat} {s : Stack} {e : Step.Effect}
    (get : p.get? here = some ins) (h : Step.Does p ins here s e) (hf : Follow s slots) :
    ∃ out next, Executes p answer ins slots out next ∧ Follow e.stack out ∧
      p.atPc? next = p.get? e.next := by
  have hlength : s.depth = slots.length := hf.length_eq
  have hnext := ht.atPc?_next get
  cases h with
  | push h _ room =>
    refine ⟨_, _, .push h (hlength ▸ room), .cons ⟨?_, rfl, rfl⟩ hf, hnext⟩
    intro _ he
    cases he
    rfl
  | @dup j v h source room =>
    obtain ⟨c, hc, hv⟩ := forall₂_getElem? hf source
    exact ⟨_, _, .dup h hc (hlength ▸ room), .cons hv.copy (forall₂_set hf hv.copy j), hnext⟩
  | swap h first second =>
    obtain ⟨c, hc, hv⟩ := forall₂_getElem? hf first
    obtain ⟨c', hc', hv'⟩ := forall₂_getElem? hf second
    exact ⟨_, _, .swap h hc hc', forall₂_set (forall₂_set hf hv' 0) hv _, hnext⟩
  | jumpdest h =>
    have hi : ins.op.inputs = 0 := by simp [h]
    have ho : ins.op.outputs ≠ 1 := by simp [h]
    refine ⟨_, _, .consume (by simp [h, Opcode.isOrdinary]) (by simp [hi]) ho, ?_, hnext⟩
    simpa [hi] using hf
  | jump h hs known valid index =>
    obtain ⟨s⟩ := s
    cases hs
    cases hf with | cons htarget hrest =>
    have hw := htarget.word _ (Value.word?_of_known known)
    exact ⟨_, _, .jump h (by rwa [hw]), hrest, by rw [hw]; exact atPc?_of_indexOf? ht index⟩
  | take h hs decided holds known valid index =>
    obtain ⟨s⟩ := s
    cases hs
    cases hf with | cons htarget hrest =>
    cases hrest with | cons hcondition hrest =>
    have hw := htarget.word _ (Value.word?_of_known known)
    have hc := hcondition.word _ decided
    exact ⟨_, _, .take h (by rwa [hc]) (by rwa [hw]), hrest,
      by rw [hw]; exact atPc?_of_indexOf? ht index⟩
  | pass h hs decided known =>
    obtain ⟨s⟩ := s
    cases hs
    cases hf with | cons htarget hrest =>
    cases hrest with | cons hcondition hrest =>
    exact ⟨_, _, .pass h (hcondition.word _ decided), hrest, hnext⟩
  | copy h hs =>
    have hi : ins.op.inputs = 3 := by simp [h]
    have ho : ins.op.outputs ≠ 1 := by simp [h]
    refine ⟨_, _, .consume (by simp [h, Opcode.isOrdinary]) ?_ ho, ?_, hnext⟩
    · simp [hi, ← hlength, Stack.depth, hs]
    · have := List.forall₂_drop 3 hf
      rw [hs] at this
      exact hi ▸ this
  | compute h inputs outputs result room =>
    have hdrop := List.forall₂_drop ins.op.inputs hf
    exact ⟨_, _, .compute (Opcode.isOrdinary_of_isPlain h) (hlength ▸ inputs) outputs
      (hdrop.length_eq ▸ room), .cons (hf.evaluate result rfl (hlength ▸ inputs)) hdrop, hnext⟩
  | consume h inputs outputs =>
    exact ⟨_, _, .consume (Opcode.isOrdinary_of_isPlain h) (hlength ▸ inputs) outputs,
      List.forall₂_drop _ hf, hnext⟩

def Takes (ins : Instruction) (slots : List Slot) : Prop :=
  ins.op = .jump ∨ ∃ c, slots[1]? = some c ∧ c.word ≠ 0

-- What an analysis says of an instruction that is about to be executed: where the target of a jump
-- and the source offset of a code copy come from, and where a jump goes.
structure Accounted (p : Program) (a : Analysis) (ins : Instruction) (slots : List Slot) :
    Prop where
  jump : ins.op.isJump → ∃ target rest origin, slots = target :: rest ∧
    target.origin = some origin ∧ p.Pushes origin target.word.toNat ∧
    ∃ s ∈ a.jumps, s.pc = ins.pc ∧ Origin.Listed origin target.copied s.origins ∧
      (Takes ins slots → target.word.toNat ∈ s.destinations)
  copy : ins.op = .codecopy → ∃ offset, slots[1]? = some offset ∧
    ∃ s ∈ a.copies, s.pc = ins.pc ∧
      ((∃ origin, offset.origin = some origin ∧ p.Pushes origin offset.word.toNat ∧
        Origin.Listed origin offset.copied s.origins) ∨ s.computed ∨ s.dynamic)

variable {a : Analysis}

theorem Accounted.alike (h : Accounted p a ins slots) (ha : Alike ins slots slots') :
    Accounted p a ins slots' := by
  cases ha with
  | refl => exact h
  | @condition target c c' rest hj zero =>
    refine ⟨fun hop => ?_, fun hop => by simp [hj] at hop⟩
    obtain ⟨_, _, origin, ⟨⟩, ho, hpush, s, hs, hpc, hl, hd⟩ := h.jump hop
    refine ⟨_, _, origin, rfl, ho, hpush, s, hs, hpc, hl, fun ht => hd ?_⟩
    rcases ht with ht | ⟨_, ⟨⟩, hne⟩
    case inl => exact .inl ht
    case inr => exact .inr ⟨c, rfl, mt zero.mp hne⟩

theorem accounted_of_ne (hj : ins.op.isJump = false) (hc : ins.op ≠ .codecopy) :
    Accounted p a ins slots :=
  ⟨fun h => by simp [hj] at h, fun h => absurd h hc⟩

theorem accounted_of_knows (hcomplete : a.Complete p) (hins : ins ∈ p.instructions)
    {v : Value} {target : Slot} {rest : List Slot} {origin : Nat} {word : Word} {d : Option Nat}
    (hv : v.Genuine p) (known : v.known = .pushed origin word) (hf : Slot.Follows v target)
    (hop : ins.op.isJump) (ht : Takes ins (target :: rest) → d = some word.toNat)
    (hk : a.Knows (.jump ins.pc ⟨origin, v.duplicated, .traced⟩ d)) :
    Accounted p a ins (target :: rest) := by
  have hw := hf.word _ (Value.word?_of_known known)
  have ho := hf.origin.trans (Value.origin?_of_known known)
  have ⟨s, hs, hpc⟩ := hcomplete.jumps ins hins hop
  have hrecord := hk.jump hs hpc
  refine ⟨fun _ => ⟨target, rest, origin, rfl, ho, hw ▸ hv _ _ known, s, hs, hpc, ?_, ?_⟩, ?_⟩
  · rw [← hrecord, JumpSite.origins_record, Origin.listed_insert, hf.copied]
    exact .inl ⟨rfl, id⟩
  · intro taken
    rw [← hrecord, JumpSite.mem_destinations_record, hw]
    exact .inl (ht taken)
  · intro hc
    simp [hc, Opcode.isJump] at hop

theorem accounted_of_does (hcomplete : a.Complete p) (hins : ins ∈ p.instructions) {here : Nat}
    {s : Stack} {e : Step.Effect} (h : Step.Does p ins here s e) (hf : Follow s slots)
    (hs : s.Genuine p) (hk : ∀ o, e.seen = some o → a.Knows o) : Accounted p a ins slots := by
  obtain ⟨s⟩ := s
  cases h with
  | push h => exact accounted_of_ne (Opcode.not_isJump_of_isPush h) (Opcode.ne_codecopy_of_isPush h)
  | dup h | swap h | jumpdest h =>
    exact accounted_of_ne (by simp [h, Opcode.isJump]) (by simp [h])
  | compute h | consume h =>
    exact accounted_of_ne (Opcode.not_isJump_of_isPlain h) (Opcode.ne_codecopy_of_isPlain h)
  | jump h slots known =>
    cases slots
    cases hf with | cons htarget hrest =>
    exact accounted_of_knows hcomplete hins (hs _ (by simp)) known htarget
      (by simp [h, Opcode.isJump]) (fun _ => rfl) (hk _ rfl)
  | take h slots decided holds known =>
    cases slots
    cases hf with | cons htarget hrest =>
    exact accounted_of_knows hcomplete hins (hs _ (by simp)) known htarget
      (by simp [h, Opcode.isJump]) (fun _ => rfl) (hk _ rfl)
  | pass h slots decided known =>
    cases slots
    cases hf with | cons htarget hrest =>
    cases hrest with | cons hcondition hrest =>
    refine accounted_of_knows hcomplete hins (hs _ (by simp)) known htarget
      (by simp [h, Opcode.isJump]) (fun ht => ?_) (hk _ rfl)
    rcases ht with ht | ⟨_, ⟨⟩, hne⟩
    case inl => simp [h] at ht
    case inr => exact absurd (hcondition.word _ decided) hne
  | @copy memory offset length rest h slots =>
    cases slots
    cases hf with | cons hmemory hrest =>
    cases hrest with | @cons _ c _ _ hoffset hrest =>
    refine ⟨fun hj => by simp [h, Opcode.isJump] at hj, fun _ => ⟨c, rfl, ?_⟩⟩
    obtain ⟨s, hm, hpc⟩ := hcomplete.copies ins hins h
    have hrecord := (hk _ rfl).copy hm hpc
    refine ⟨s, hm, hpc, ?_⟩
    rw [← hrecord]
    simp only [Step.copySource]
    split
    case h_1 => exact .inr (.inr rfl)
    case h_2 => exact .inr (.inl rfl)
    case h_3 origin word known =>
      have hw := hoffset.word _ (Value.word?_of_known known)
      have ho := hoffset.origin.trans (Value.origin?_of_known known)
      refine .inl ⟨origin, ho, hw ▸ hs offset (by simp) _ _ known, ?_⟩
      rw [CopySite.record, Origin.listed_insert, hoffset.copied]
      exact .inl ⟨rfl, id⟩

end Machine

namespace Exploration

-- Within `n` steps a branch is explored to its end without skipping a fork, and everything that
-- there is to see goes into the analysis.
def Covers (p : Program) (a : Analysis) (n : Nat) (b : Branch) : Prop :=
  ∃ policy t log t', Explores policy p b t log t' ∧
    t'.stats.forksSkipped = t.stats.forksSkipped ∧ t'.stats.steps ≤ t.stats.steps + n ∧
    ∀ o, o.Traced → t'.analysis.Knows o → a.Knows o

variable {p : Program} {a : Analysis} {n room i : Nat} {s : Stack} {ins : Instruction}

theorem Covers.step (h : Covers p a n ⟨room, s, .running i⟩) (get : p.get? i = some ins)
    (settled : ¬ins.Forks s) :
    ∃ m s' position seen, n = m + 1 ∧ Step.step p ins i s = .ok (s', position, seen) ∧
      Covers p a m ⟨room, s', position⟩ ∧ ∀ o, seen = some o → a.Knows o := by
  have ⟨policy, t, log, t', h, hskip, hsteps, hk⟩ := h
  cases h with
  | off get' => simp [get] at get'
  | capped get' forks | recalled get' forks | explored get' forks =>
    cases get.symm.trans get'
    exact absurd forks settled
  | step get' _ step rest =>
    cases get.symm.trans get'
    have hle := rest.steps_le
    simp only [Session.steps_countStep, Session.stats_observe] at hle
    refine ⟨n - 1, _, _, _, by omega, step,
      ⟨policy, _, _, _, rest, by simpa using hskip, ?_, hk⟩, ?_⟩
    · simp only [Session.steps_countStep, Session.stats_observe]
      omega
    · rintro o rfl
      have ⟨_, does, _⟩ := Step.does_of_step step
      have ht := does.traced rfl
      exact hk o ht (rest.knows ht (by simp [Analysis.knows_record_self]))

theorem Covers.fork (h : Covers p a n ⟨room, s, .running i⟩) (get : p.get? i = some ins)
    (forks : ins.Forks s) (w : Word) (hw : w = 0 ∨ w = 1) :
    ∃ room, Covers p a n ⟨room, s.set 1 (.constant w), .running i⟩ := by
  have ⟨policy, t, log, t', h, hskip, hsteps, hk⟩ := h
  cases h with
  | off get' => simp [get] at get'
  | step get' settled =>
    cases get.symm.trans get'
    exact absurd forks settled
  | capped _ _ rest | recalled _ _ _ _ rest =>
    have := rest.forksSkipped_le
    simp only [Session.forksSkipped_countSkip] at this
    omega
  | explored _ _ _ taken rest =>
    have hskipt := taken.forksSkipped_le
    have hskipr := rest.forksSkipped_le
    have hstepst := taken.steps_le
    have hstepsr := rest.steps_le
    simp only [Session.forksSkipped_enter, Session.forksSkipped_countFork, Session.steps_enter,
      Session.steps_countFork, Session.stats_finish] at hskipt hskipr hstepst hstepsr
    rcases hw with rfl | rfl
    case inl =>
      refine ⟨_, policy, _, _, _, rest, ?_, ?_, hk⟩ <;> simp only [Session.stats_finish] <;> omega
    case inr =>
      refine ⟨_, policy, _, _, _, taken, ?_, ?_, fun o ho h => hk o ho (rest.knows ho h)⟩ <;>
        simp only [Session.forksSkipped_enter, Session.forksSkipped_countFork, Session.steps_enter,
          Session.steps_countFork] <;> omega

theorem covers_of_run {policy : Policy} (h : run policy p = .ok a) (hs : a.stats.forksSkipped = 0) :
    Covers p a a.stats.steps (root policy) := by
  obtain ⟨log, t, hlog, rfl⟩ := exists_history_of_run h
  exact ⟨policy, _, log, t, hlog, hs, Nat.le_add_left .., fun _ _ => id⟩

end Exploration

namespace Machine

open Exploration

variable {p : Program} {a : Analysis} {answer : Word}

def At (p : Program) : Position → Status → Prop
  | .halted, status => status = .halted
  | .running i, status => status = match p.get? i with
    | some ins => .running ins.pc
    | none => .halted

-- The machine is on a branch that is covered for `n` more steps.
def Tracked (p : Program) (a : Analysis) (n : Nat) (st : State) : Prop :=
  ∃ b, Covers p a n b ∧ b.stack.Genuine p ∧ Follow b.stack st.slots ∧ At p b.position st.status

theorem at_positionAt {ins : Instruction} {i pc : Nat} (h : p.atPc? pc = p.get? i) :
    At p (Step.positionAt p ins i) (if ins.op.isTerminal then .halted else goOn p pc) := by
  simp only [Step.positionAt]
  by_cases hterminal : ins.op.isTerminal
  case pos => simp [hterminal, At]
  case neg =>
    cases hi : p.get? i with
    | none =>
      have hsize : p.size ≤ i := by simpa [Program.get?, Program.size] using hi
      simp [hterminal, hsize, At, goOn, h, hi]
    | some next =>
      have hsize : ¬p.size ≤ i := by
        simp only [Program.get?] at hi
        have := (List.getElem?_eq_some_iff.mp hi).1
        simp only [Program.size]
        omega
      have hpc := Program.pc_of_atPc? (h.trans hi)
      simp [hterminal, hsize, At, goOn, h, hi, hpc]

theorem exists_covers_settled {n : Nat} {b : Branch} {i : Nat} {ins : Instruction}
    {slots : List Slot} (h : Covers p a n b) (hp : b.position = .running i)
    (get : p.get? i = some ins) (hs : b.stack.Genuine p) (hf : Follow b.stack slots) :
    ∃ room s slots', Covers p a n ⟨room, s, .running i⟩ ∧ ¬ins.Forks s ∧ s.Genuine p ∧
      Follow s slots' ∧ Alike ins slots' slots := by
  have ⟨room, s, _⟩ := b
  cases hp
  by_cases forks : ins.Forks s
  case neg => exact ⟨room, s, slots, h, forks, hs, hf, .refl _⟩
  case pos =>
    have ⟨v, hv, _⟩ := forks.2
    have ⟨c, hc, _⟩ := forall₂_getElem? hf hv
    obtain ⟨w, hw, hzero⟩ : ∃ w : Word, (w = 0 ∨ w = 1) ∧ (w = 0 ↔ c.word = 0) := by
      by_cases hz : c.word = 0
      · exact ⟨0, .inl rfl, by simp [hz]⟩
      · exact ⟨1, .inr rfl, fun h => absurd h (by decide), fun h => absurd h hz⟩
    have ⟨room, h⟩ := h.fork get forks w hw
    refine ⟨room, _, slots.set 1 ⟨w, none, false⟩, h, Instruction.not_forks_set forks w,
      hs.set (Value.genuine_constant w) 1, forall₂_set hf ⟨?_, rfl, rfl⟩ 1, ?_⟩
    · intro _ he
      cases he
      rfl
    · match slots, hc with
      | target :: _ :: rest, rfl => exact .condition forks.1 hzero

theorem At.exists_of_running {position : Position} {pc : Nat} (h : At p position (.running pc)) :
    ∃ i ins, position = .running i ∧ p.get? i = some ins ∧ ins.pc = pc := by
  cases position with
  | halted => simp [At] at h
  | running i =>
    cases get : p.get? i with
    | none => simp [At, get] at h
    | some ins => exact ⟨i, ins, rfl, get, by simpa [At, get, eq_comm] using h⟩

theorem At.not_failed {position : Position} {status : Status} (h : At p position status)
    (fault : Fault) : status ≠ .failed fault := by
  cases position with
  | halted => simp_all [At]
  | running i => cases get : p.get? i <;> simp_all [At]

theorem Tracked.step (ht : p.Tiled) (hcomplete : a.Complete p) {n pc : Nat} {st : State}
    (h : Tracked p a n st) (answer : Word) (hst : st.status = .running pc) :
    ∃ m ins, n = m + 1 ∧ p.atPc? pc = some ins ∧ Accounted p a ins st.slots ∧
      Tracked p a m (step p answer st) := by
  have ⟨b, hb, hs, hf, hat⟩ := h
  obtain ⟨i, ins, hp, get, rfl⟩ := (hst ▸ hat : At p b.position (.running pc)).exists_of_running
  have hins := ht.atPc?_of_get? get
  have ⟨room, s, slots, hb, settled, hs, hf, ha⟩ := exists_covers_settled hb hp get hs hf
  obtain ⟨m, s', position, seen, rfl, hstep, hb, hk⟩ := hb.step get settled
  obtain ⟨next, does, rfl⟩ := Step.does_of_step hstep
  obtain ⟨out, pc', hexec, hf', hpc'⟩ := executes_of_does ht get does hf
  have hm : ins ∈ p.instructions := List.mem_of_getElem? get
  refine ⟨m, ins, rfl, hins, (accounted_of_does hcomplete hm does hf hs hk).alike ha, ?_⟩
  rw [step_of_executes hst hins (hexec.alike ha)]
  exact ⟨_, hb, (does.genuine hins hs).1, hf', at_positionAt hpc'⟩

section

variable (ht : p.Tiled) (hcomplete : a.Complete p) (oracle : Nat → Word)

include ht

theorem tracked_start {n : Nat} {policy : Policy} (h : Covers p a n (root policy)) :
    Tracked p a n (run p oracle 0 0) := by
  refine ⟨_, h, by simp [root, Stack.Genuine, Stack.empty], .nil, ?_⟩
  simp only [run, goOn, ht.atPc?_zero, At, root, Position.start]
  cases get : p.get? 0 with
  | none => rfl
  | some ins =>
    have hpc := Program.pc_of_atPc? (ht.atPc?_zero.trans get)
    simp [hpc]

include hcomplete

theorem tracked_run {policy : Policy} {total : Nat} (h : Covers p a total (root policy)) (n : Nat) :
    ∃ m, Tracked p a m (run p oracle 0 n) ∧
      (m + n = total ∨ (run p oracle 0 n).status = .halted) := by
  induction n with
  | zero => exact ⟨total, tracked_start ht oracle h, .inl rfl⟩
  | succ n ih =>
    have ⟨m, hm, hn⟩ := ih
    cases hst : (run p oracle 0 n).status with
    | running pc =>
      obtain ⟨m, ins, rfl, -, -, hm⟩ := hm.step ht hcomplete (oracle n) hst
      have hn := hn.resolve_right (by simp [hst])
      exact ⟨m, hm, .inl (by omega)⟩
    | halted =>
      rw [run, step_of_halted hst]
      exact ⟨m, hm, .inr hst⟩
    | failed fault =>
      have ⟨_, _, _, _, hat⟩ := hm
      exact absurd hst (hat.not_failed fault)

end

section

variable (ht : p.Tiled) (h : analyze p = .ok a)
  (hs : a.stats.forksSkipped = 0) (oracle : Nat → Word)

include ht h hs

theorem accounted_run (n : Nat) :
    (∀ fault, (run p oracle 0 n).status ≠ .failed fault) ∧
      ∀ pc, (run p oracle 0 n).status = .running pc → ∃ ins, p.atPc? pc = some ins ∧
        Accounted p a ins (run p oracle 0 n).slots := by
  have ⟨m, hm, _⟩ := tracked_run ht (complete_of_run h) oracle (covers_of_run h hs) n
  constructor
  · have ⟨_, _, _, _, hat⟩ := hm
    exact hat.not_failed
  · intro pc hst
    have ⟨_, ins, _, hins, ha, _⟩ := hm.step ht (complete_of_run h) 0 hst
    exact ⟨ins, hins, ha⟩

theorem halted_run : (run p oracle 0 a.stats.steps).status = .halted := by
  have ⟨m, hm, hn⟩ := tracked_run ht (complete_of_run h) oracle (covers_of_run h hs) a.stats.steps
  cases hst : (run p oracle 0 a.stats.steps).status with
  | halted => rfl
  | failed fault => exact absurd hst ((accounted_run ht h hs oracle _).1 fault)
  | running pc =>
    obtain ⟨m, _, rfl, _⟩ := hm.step ht (complete_of_run h) 0 hst
    have hn := hn.resolve_right (by simp [hst])
    omega

end

-- An exploration that skips no fork covers every run of the machine.
theorem run_covered {code : List UInt8} (h : analyze (.decode code) = .ok a)
    (hs : a.stats.forksSkipped = 0) (oracle : Nat → Word) :
    (run (.decode code) oracle 0 a.stats.steps).status = .halted ∧
      ∀ n, (∀ fault, (run (.decode code) oracle 0 n).status ≠ .failed fault) ∧
        (run (.decode code) oracle 0 n).slots.length ≤ 1024 ∧
        ∀ pc, (run (.decode code) oracle 0 n).status = .running pc →
          ∃ ins, (Program.decode code).atPc? pc = some ins ∧
            Accounted (.decode code) a ins (run (.decode code) oracle 0 n).slots := by
  have ht := Program.tiled_decode code
  refine ⟨halted_run ht h hs oracle, fun n => ?_⟩
  have ⟨hfault, haccounted⟩ := accounted_run ht h hs oracle n
  exact ⟨hfault, length_run_le oracle 0 n, haccounted⟩

def guard : List UInt8 := [0x34, 0x60, 0x04, 0x57, 0x5b]

theorem run_covered_guard :
    ∃ a, analyze (.decode guard) = .ok a ∧ a.stats.forksSkipped = 0 ∧
      ∀ oracle,
        (run (.decode guard) oracle 0 a.stats.steps).status = .halted ∧
        (run (.decode guard) oracle 0 2).status = .running 3 ∧
        (run (.decode guard) oracle 0 2).slots = [⟨4, some 1, false⟩, ⟨oracle 0, none, false⟩] ∧
        Accounted (.decode guard) a ⟨3, .jumpi, none⟩ (run (.decode guard) oracle 0 2).slots := by
  have hdecode : Program.decode guard = ⟨[
      ⟨0, .callvalue, none⟩, ⟨1, .push 1, some [4]⟩, ⟨3, .jumpi, none⟩, ⟨4, .jumpdest, none⟩]⟩ := by
    cbv
  have h : analyze (.decode guard) =
      .ok ⟨[⟨3, .jumpi, [⟨1, false, .traced⟩], [4]⟩], [], ⟨6, 1, 0, 1⟩⟩ := by
    rw [hdecode]
    decide +kernel
  refine ⟨_, h, rfl, fun oracle => ?_⟩
  obtain ⟨hhalted, hrun⟩ := run_covered h rfl oracle
  have hst : (run (.decode guard) oracle 0 2).status = .running 3 := by
    rw [hdecode]
    rfl
  have hslots : (run (.decode guard) oracle 0 2).slots =
      [⟨4, some 1, false⟩, ⟨oracle 0, none, false⟩] := by
    rw [hdecode]
    rfl
  obtain ⟨ins, hins, haccounted⟩ := (hrun 2).2.2 3 hst
  rw [hdecode] at hins
  cases hins
  exact ⟨hhalted, hst, hslots, haccounted⟩

end Machine
end Splice
