import Splice.Proofs.Coverage
import Splice.Proofs.Landing

namespace Splice

namespace Machine

namespace Slot

def isPatched (pcs : List Nat) (c : Slot) : Bool :=
  c.origin.any (· ∈ pcs)

def shift (distance : Nat) (pcs : List Nat) (c : Slot) : Slot where
  word   := if c.isPatched pcs then c.word + .ofNat 256 distance else c.word
  origin := c.origin.map (distance + ·)
  copied := c.copied

variable {distance : Nat} {pcs : List Nat} {c : Slot}

@[simp]
theorem shift_copy : c.copy.shift distance pcs = (c.shift distance pcs).copy :=
  rfl

theorem word_shift (h : c.isPatched pcs = false) : (c.shift distance pcs).word = c.word := by
  simp [shift, h]

end Slot

def Status.shift (distance : Nat) : Status → Status
  | running pc => running (distance + pc)
  | status => status

def State.shift (distance : Nat) (pcs : List Nat) (s : State) : State where
  slots  := s.slots.map (·.shift distance pcs)
  status := s.status.shift distance

-- An instruction notices that the program was moved if what it computes comes out otherwise for the
-- words of patched pushes, or if the condition that it tests does.
def Notices (distance : Nat) (pcs : List Nat) (ins : Instruction) (slots : List Slot) : Prop :=
  compute ins.op (((slots.map (·.shift distance pcs)).take ins.op.inputs).map (·.word)) ≠
      compute ins.op ((slots.take ins.op.inputs).map (·.word)) ∨
    (ins.op = .jumpi ∧ ∃ c, slots[1]? = some c ∧ ¬((c.shift distance pcs).word = 0 ↔ c.word = 0))

def Inspects (pcs : List Nat) (ins : Instruction) (slots : List Slot) : Prop :=
  (ins.op.isFolded ∧ ∃ c ∈ slots.take ins.op.inputs, c.isPatched pcs) ∨
    (ins.op = .jumpi ∧ ∃ c, slots[1]? = some c ∧ c.isPatched pcs)

def Slot.Raised (distance : Nat) (pcs : List Nat) (c : Slot) : Prop :=
  c.isPatched pcs ∧ (c.shift distance pcs).word.toNat = distance + c.word.toNat

structure Aimed (distance : Nat) (pcs : List Nat) (ins : Instruction) (slots : List Slot) :
    Prop where
  jump : ins.op.isJump → ∃ target, slots[0]? = some target ∧ target.Raised distance pcs
  copy : ins.op = .codecopy → ∃ offset, slots[1]? = some offset ∧ offset.Raised distance pcs

end Machine

-- A program that is another one behind `distance` bytes, with some of its pushes raised by as much.
structure Program.Shifted (p q : Program) (distance : Nat) (pcs : List Nat) : Prop where
  atPc?     : ∀ pc, q.atPc? (distance + pc) =
    (p.atPc? pc).map fun ins => (ins.raise distance pcs).shift distance
  patchable : ∀ pc ∈ pcs, p.Patchable distance pc

namespace Machine

section

variable {distance : Nat} {pcs : List Nat} {ins : Instruction} {slots : List Slot}

theorem compute_shift (h : ¬Notices distance pcs ins slots) :
    compute ins.op (((slots.map (·.shift distance pcs)).take ins.op.inputs).map (·.word)) =
      compute ins.op ((slots.take ins.op.inputs).map (·.word)) := by
  by_contra hne
  exact h (.inl hne)

theorem condition_shift (h : ¬Notices distance pcs ins slots) (hop : ins.op = .jumpi) {c : Slot}
    (hc : slots[1]? = some c) : (c.shift distance pcs).word = 0 ↔ c.word = 0 := by
  by_contra hne
  exact h (.inr ⟨hop, c, hc, hne⟩)

theorem Notices.inspects (h : Notices distance pcs ins slots) : Inspects pcs ins slots := by
  by_contra hi
  cases h
  case inl h =>
    refine h ?_
    cases hf : ins.op.isFolded with
    | false => rw [compute_of_not_isFolded hf, compute_of_not_isFolded hf]
    | true =>
      rw [← List.map_take, List.map_map]
      refine congrArg (compute ins.op) (List.map_congr_left fun c hc => Slot.word_shift ?_)
      by_contra hp
      exact hi (.inl ⟨hf, c, hc, by simpa using hp⟩)
  case inr h =>
    obtain ⟨hop, c, hc, h⟩ := h
    refine h ?_
    rw [Slot.word_shift]
    by_contra hp
    exact hi (.inr ⟨hop, c, hc, by simpa using hp⟩)

end

variable {p q : Program} {distance : Nat} {pcs : List Nat} (hq : p.Shifted q distance pcs)
  {answer : Word} {ins : Instruction} {slots out : List Slot} {next : Nat}

include hq

theorem isJumpdest_shift (pc : Nat) : q.isJumpdest (distance + pc) = p.isJumpdest pc := by
  rw [Program.isJumpdest, hq.atPc?, Program.isJumpdest, Option.any_map]
  simp [Instruction.shift]

theorem goOn_shift (pc : Nat) : goOn q (distance + pc) = (goOn p pc).shift distance := by
  simp only [goOn, hq.atPc?, Option.isSome_map]
  split <;> rfl

theorem push_shift (hins : p.atPc? ins.pc = some ins) :
    (⟨.ofBytes ((ins.raise distance pcs).shift distance).immediate,
      some ((ins.raise distance pcs).shift distance).pc, false⟩ : Slot) =
      Slot.shift distance pcs ⟨.ofBytes ins.immediate, some ins.pc, false⟩ := by
  simp only [Slot.shift, Slot.isPatched, Option.any_some, Slot.mk.injEq, and_true,
    Instruction.immediate_shift]
  refine ⟨?_, by simp [Instruction.shift]⟩
  by_cases hpc : ins.pc ∈ pcs
  case neg => simp [hpc, Instruction.raise_of_not_mem]
  case pos =>
    obtain ⟨ins', hins', _, _, _, _, hlt⟩ := hq.patchable ins.pc hpc
    cases hins.symm.trans hins'
    have hvalue := Instruction.value_raise hpc hlt
    simp only [Instruction.value] at hvalue
    simp only [hpc, decide_true, ↓reduceIte, Word.ofBytes, hvalue, BitVec.ofNat_add]

theorem Executes.shift (h : Executes p answer ins slots out next)
    (hins : p.atPc? ins.pc = some ins) (hn : ¬Notices distance pcs ins slots)
    (ha : Aimed distance pcs ins slots) :
    Executes q answer ((ins.raise distance pcs).shift distance)
      (slots.map (·.shift distance pcs)) (out.map (·.shift distance pcs)) (distance + next) := by
  have hop : ((ins.raise distance pcs).shift distance).op = ins.op := Instruction.op_raise
  have hnext : ((ins.raise distance pcs).shift distance).next = distance + ins.next := by
    simp only [Instruction.next, hop]
    simp only [Instruction.shift, Instruction.pc_raise]
    omega
  cases h with
  | push h room =>
    rw [← hnext, List.map_cons, ← push_shift hq hins]
    exact .push (hop ▸ h) (by simpa using room)
  | @dup _ n c h source room =>
    rw [← hnext, List.map_cons, List.map_set, Slot.shift_copy]
    exact .dup (hop ▸ h) (by simp [source]) (by simpa using room)
  | @swap _ n top below h first second =>
    rw [← hnext, List.map_set, List.map_set]
    exact .swap (hop ▸ h) (by simp [first]) (by simp [second])
  | @jump target rest h valid =>
    obtain ⟨_, ⟨⟩, -, hword⟩ := ha.jump (by simp [h, Opcode.isJump])
    rw [← hword]
    exact .jump (hop ▸ h) (by rwa [hword, isJumpdest_shift hq])
  | @take target condition rest h holds valid =>
    obtain ⟨_, ⟨⟩, -, hword⟩ := ha.jump (by simp [h, Opcode.isJump])
    have hc := condition_shift hn h rfl
    rw [← hword]
    exact .take (hop ▸ h) (mt hc.mp holds) (by rwa [hword, isJumpdest_shift hq])
  | @pass target condition rest h fails =>
    rw [← hnext]
    exact .pass (hop ▸ h) ((condition_shift hn h rfl).mpr fails)
  | compute h inputs outputs room =>
    have hwords := compute_shift hn
    have hexec : Executes q answer ((ins.raise distance pcs).shift distance)
        (slots.map (·.shift distance pcs)) _ _ :=
      .compute (hop ▸ h) (by simpa [hop] using inputs) (hop ▸ outputs) (by simpa [hop] using room)
    rw [hop, hwords, hnext, ← List.map_drop] at hexec
    exact hexec
  | consume h inputs outputs =>
    rw [← hnext, List.map_drop, ← hop]
    exact .consume (hop ▸ h) (by simpa [hop] using inputs) (hop ▸ outputs)

theorem step_shift {s : State} {pc : Nat} (hs : s.status = .running pc)
    (hins : p.atPc? pc = some ins) (h : Executes p answer ins s.slots out next)
    (hn : ¬Notices distance pcs ins s.slots) (ha : Aimed distance pcs ins s.slots) :
    step q answer (s.shift distance pcs) = (step p answer s).shift distance pcs := by
  have hins' : p.atPc? ins.pc = some ins := Program.pc_of_atPc? hins ▸ hins
  have hs' : (s.shift distance pcs).status = .running (distance + pc) := by
    simp [State.shift, Status.shift, hs]
  have hat : q.atPc? (distance + pc) = some ((ins.raise distance pcs).shift distance) := by
    rw [hq.atPc?, hins, Option.map_some]
  have hop : ((ins.raise distance pcs).shift distance).op = ins.op := Instruction.op_raise
  rw [step_of_executes hs' hat (h.shift hq hins' hn ha), step_of_executes hs hins h, hop,
    goOn_shift hq]
  simp only [State.shift, State.mk.injEq, true_and]
  split <;> rfl

theorem run_shift (oracle : Nat → Word) {k : Nat}
    (hf : ∀ j, ∀ fault, (run p oracle 0 j).status ≠ .failed fault)
    (hrun : ∀ j < k, ∀ pc, (run p oracle 0 j).status = .running pc →
      ∃ ins, p.atPc? pc = some ins ∧ ¬Notices distance pcs ins (run p oracle 0 j).slots ∧
        Aimed distance pcs ins (run p oracle 0 j).slots) :
    run q oracle distance k = (run p oracle 0 k).shift distance pcs := by
  induction k with
  | zero =>
    have := goOn_shift hq 0
    rw [Nat.add_zero] at this
    simp [run, State.shift, this]
  | succ k ih =>
    have ih := ih fun j hj => hrun j (Nat.lt_succ_of_lt hj)
    rw [run, run, ih]
    cases hst : (run p oracle 0 k).status with
    | halted =>
      rw [step_of_halted hst, step_of_halted]
      simp [State.shift, Status.shift, hst]
    | failed fault => exact absurd hst (hf k fault)
    | running pc =>
      obtain ⟨ins, hins, hn, ha⟩ := hrun k (Nat.lt_succ_self k) pc hst
      obtain ⟨out, next, hexec⟩ := executes_of_step hst hins (hf (k + 1))
      exact step_shift hq hst hins hexec hn ha

end Machine

-- Patched words are pushed where the next instruction jumps.
def Program.JumpsAtOnce (p : Program) (pcs : List Nat) : Prop :=
  ∀ push jump, p.atPc? push.pc = some push → push.pc ∈ pcs → p.atPc? push.next = some jump →
    jump.op.isJump

namespace Machine

def bystanders (ins : Instruction) (slots : List Slot) : List Slot :=
  if ins.op.isJump then slots.tail else slots

def Unpatched (pcs : List Nat) (slots : List Slot) : Prop :=
  ∀ c ∈ slots, c.isPatched pcs = false

section

variable {p : Program} {pcs : List Nat} {answer : Word} {ins ins' : Instruction}
  {slots out : List Slot} {next : Nat}

theorem bystanders_of_not_isJump (h : ins.op.isJump = false) : bystanders ins slots = slots := by
  rw [bystanders, h]
  rfl

theorem Unpatched.bystanders (h : Unpatched pcs slots) (ins : Instruction) :
    Unpatched pcs (bystanders ins slots) := by
  intro c hc
  rw [Machine.bystanders] at hc
  split at hc
  case isTrue => exact h c (List.mem_of_mem_tail hc)
  case isFalse => exact h c hc

theorem Unpatched.set (h : Unpatched pcs slots) {c : Slot} (hc : c.isPatched pcs = false)
    (i : Nat) : Unpatched pcs (slots.set i c) := by
  intro c' hc'
  rcases List.mem_or_eq_of_mem_set hc' with hc' | rfl
  · exact h c' hc'
  · exact hc

theorem Unpatched.cons (h : Unpatched pcs slots) {c : Slot} (hc : c.isPatched pcs = false) :
    Unpatched pcs (c :: slots) :=
  List.forall_mem_cons.mpr ⟨hc, h⟩

theorem not_inspects_of_unpatched (h : Unpatched pcs (bystanders ins slots)) :
    ¬Inspects pcs ins slots := by
  rintro (⟨hfolded, c, hc, hpatched⟩ | ⟨hop, c, hc, hpatched⟩)
  case inl =>
    have hjump : ins.op.isJump = false := by
      cases hop : ins.op <;> simp_all [Opcode.isJump, Opcode.isFolded]
    rw [bystanders_of_not_isJump hjump] at h
    simp [h c (List.mem_of_mem_take hc)] at hpatched
  case inr =>
    have hmem : c ∈ bystanders ins slots := by
      rw [bystanders, if_pos (by simp [hop, Opcode.isJump])]
      exact List.mem_of_getElem? (List.getElem?_tail.trans hc)
    simp [h c hmem] at hpatched

-- No word of a patched push stays on the stack for longer than the jump behind the push takes.
theorem Executes.unpatched (h : Executes p answer ins slots out next)
    (hp : p.JumpsAtOnce pcs) (hins : p.atPc? ins.pc = some ins)
    (hu : Unpatched pcs (bystanders ins slots)) (hnext : p.atPc? next = some ins') :
    Unpatched pcs (bystanders ins' out) := by
  have hslots (hjump : ins.op.isJump = false) : Unpatched pcs slots := by
    rwa [bystanders_of_not_isJump hjump] at hu
  cases h with
  | push h =>
    have hslots := hslots (Opcode.not_isJump_of_isPush h)
    by_cases hpc : ins.pc ∈ pcs
    case pos => rwa [bystanders, if_pos (hp ins ins' hins hpc hnext)]
    case neg => exact (hslots.cons (by simp [Slot.isPatched, hpc])).bystanders ins'
  | @dup _ _ c h source =>
    have hslots := hslots (by simp [h, Opcode.isJump])
    have hc : c.copy.isPatched pcs = false := hslots c (List.mem_of_getElem? source)
    exact ((hslots.set hc _).cons hc).bystanders ins'
  | swap h first second =>
    have hslots := hslots (by simp [h, Opcode.isJump])
    refine Unpatched.bystanders ?_ ins'
    exact (hslots.set (hslots _ (List.mem_of_getElem? second)) 0).set
      (hslots _ (List.mem_of_getElem? first)) _
  | jump h =>
    rw [bystanders, if_pos (by simp [h, Opcode.isJump])] at hu
    exact hu.bystanders ins'
  | take h | pass h =>
    rw [bystanders, if_pos (by simp [h, Opcode.isJump])] at hu
    exact Unpatched.bystanders (fun c hc => hu c (List.mem_cons_of_mem _ hc)) ins'
  | compute h =>
    have hslots := hslots (Opcode.not_isJump_of_isOrdinary h)
    refine (Unpatched.cons (fun c hc => ?_) rfl).bystanders ins'
    exact hslots c (List.mem_of_mem_drop hc)
  | consume h =>
    have hslots := hslots (Opcode.not_isJump_of_isOrdinary h)
    exact Unpatched.bystanders (fun c hc => hslots c (List.mem_of_mem_drop hc)) ins'

theorem unpatched_run (hp : p.JumpsAtOnce pcs) (oracle : Nat → Word) (n : Nat) {pc : Nat}
    (hpc : (run p oracle 0 n).status = .running pc) (hins : p.atPc? pc = some ins) :
    Unpatched pcs (bystanders ins (run p oracle 0 n).slots) := by
  induction n generalizing pc ins with
  | zero => exact Unpatched.bystanders (List.forall_mem_nil _) ins
  | succ n ih =>
    obtain ⟨ins', pc', hst, hins', hexec⟩ := executes_of_running hpc
    have hpc' := Program.pc_of_atPc? hins'
    exact hexec.unpatched hp (hpc'.symm ▸ hins') (ih hst hins') hins

end

end Machine

namespace Resolution.Settles

open Machine

variable {p : Program} {a : Analysis} {r : Resolution} {distance : Nat}

theorem raised {c : Slot} {origin : Nat} (ho : c.origin = some origin) (hm : origin ∈ r.patched)
    (hpush : p.Pushes origin c.word.toNat) (hp : p.Patchable distance origin) :
    c.Raised distance r.patched := by
  have hpatched : c.isPatched r.patched := by simp [Slot.isPatched, ho, hm]
  refine ⟨hpatched, ?_⟩
  obtain ⟨ins, hins, _, hvalue⟩ := hpush
  obtain ⟨ins', hins', _, _, _, hwidth, hlt⟩ := hp
  cases hins.symm.trans hins'
  have hlt : c.word.toNat + distance < 2 ^ 256 :=
    calc
      _ < BigEndian.bound ins.op.width := hvalue ▸ hlt
      _ ≤ BigEndian.bound 2            := BigEndian.bound_le_bound hwidth
      _ ≤ 2 ^ 256                      := by decide
  have hd : distance < 2 ^ 256 := Nat.lt_of_le_of_lt (Nat.le_add_left ..) hlt
  simp only [Slot.shift, if_pos hpatched]
  rw [BitVec.toNat_add, BitVec.toNat_ofNat, Nat.mod_eq_of_lt hd, Nat.mod_eq_of_lt hlt,
    Nat.add_comm]

theorem aimed (h : Settles p a r) (hp : ∀ pc ∈ r.patched, p.Patchable distance pc)
    {ins : Instruction} {slots : List Slot} (ha : Accounted p a ins slots) :
    Aimed distance r.patched ins slots where
  jump hop := by
    obtain ⟨target, rest, origin, rfl, ho, hpush, s, hs, -, ⟨o, hm, rfl, -⟩, -⟩ := ha.jump hop
    have hresolved : s.isResolved := by
      simp only [JumpSite.isResolved]
      cases hor : s.origins <;> simp_all
    have hpatched := mem_patched_of_jump (h.resolved s hs hresolved) hm
    exact ⟨target, rfl, raised ho hpatched hpush (hp _ hpatched)⟩
  copy hop := by
    obtain ⟨offset, hoffset, s, hs, -, ⟨origin, ho, hpush, o, hm, rfl, -⟩ | hc | hd⟩ := ha.copy hop
    case inl =>
      have hpatched := mem_patched_of_copy (h.copied ▸ hs) hm
      exact ⟨offset, hoffset, raised ho hpatched hpush (hp _ hpatched)⟩
    case inr.inl => simp [(h.pushed s (h.copied ▸ hs)).1] at hc
    case inr.inr => simp [(h.pushed s (h.copied ▸ hs)).2] at hd

end Resolution.Settles

namespace Spliced

open Program

variable {deployed : List UInt8} {prelude : Prelude} {suffix : Nat} {out : Injection}
  {front back front' : List UInt8} (h : Spliced deployed prelude suffix out front back front')

include h

theorem stripped_deployed : stripped deployed suffix = decode front := by
  simp [stripped, h.deployed, ← h.suffix]

theorem stripped_runtime :
    stripped out.runtimeCode suffix = decode (prelude.bytes ++ front') := by
  have hlen : (prelude.bytes ++ front' ++ back).length - back.length =
      (prelude.bytes ++ front').length := by
    rw [List.length_append, Nat.add_sub_cancel]
  rw [stripped, h.runtime, ← List.append_assoc, ← h.suffix, hlen, List.take_left]

theorem shifted (hw : (decode prelude.bytes).Whole) :
    (stripped deployed suffix).Shifted (stripped out.runtimeCode suffix) prelude.size
      out.resolution.patched where
  atPc? pc := by
    have := h.atPc?_eq hw [] pc
    simpa [h.stripped_deployed, h.stripped_runtime] using this
  patchable := h.stripped_deployed ▸ h.patchable

end Spliced

open Machine in
-- A spliced code runs in lock-step with the code that it comes from. The words on its stack are the
-- same, except that those of patched pushes are larger by the length of the prelude; targets of
-- jumps and source offsets of code copies are always such words. This goes on until a computation
-- or a test comes out otherwise for such a word.
theorem runs_in_lock_step {init deployed : List UInt8} {prelude : Prelude} {suffix : Nat}
    {out : Injection} (h : inject init deployed prelude suffix = .ok out)
    (hw : (Program.decode prelude.bytes).Whole) (hs : out.resolution.stats.forksSkipped = 0)
    (oracle : Nat → Word) (k : Nat)
    (hn : ∀ j < k, ∀ pc ins, (run (.stripped deployed suffix) oracle 0 j).status = .running pc →
      (Program.stripped deployed suffix).atPc? pc = some ins →
      ¬Notices prelude.size out.resolution.patched ins
        (run (.stripped deployed suffix) oracle 0 j).slots) :
    run (.stripped out.runtimeCode suffix) oracle prelude.size k =
        (run (.stripped deployed suffix) oracle 0 k).shift prelude.size out.resolution.patched ∧
      (∀ fault, (run (.stripped deployed suffix) oracle 0 k).status ≠ .failed fault) ∧
      ∀ pc, (run (.stripped deployed suffix) oracle 0 k).status = .running pc →
        ∃ ins ins', (Program.stripped deployed suffix).atPc? pc = some ins ∧
          (Program.stripped out.runtimeCode suffix).atPc? (prelude.size + pc) = some ins' ∧
          ins'.op = ins.op ∧
          Aimed prelude.size out.resolution.patched ins
            (run (.stripped deployed suffix) oracle 0 k).slots := by
  have ⟨front, back, front', hspliced⟩ := spliced_of_inject h
  have hshifted := hspliced.shifted hw
  have ht : (Program.stripped deployed suffix).Tiled := Program.tiled_decode _
  have hresolved := hspliced.resolved
  rw [← hspliced.stripped_deployed] at hresolved
  have ⟨a, ha, settles⟩ := Resolution.settles_of_resolve ht hresolved
  have hskip : a.stats.forksSkipped = 0 := settles.stats ▸ hs
  have hrun := accounted_run ht ha hskip oracle
  refine ⟨?_, (hrun k).1, fun pc hpc => ?_⟩
  · refine run_shift hshifted oracle (fun j => (hrun j).1) fun j hj pc hpc => ?_
    have ⟨ins, hins, haccounted⟩ := (hrun j).2 pc hpc
    exact ⟨ins, hins, hn j hj pc ins hpc hins, settles.aimed hshifted.patchable haccounted⟩
  · have ⟨ins, hins, haccounted⟩ := (hrun k).2 pc hpc
    refine ⟨ins, (ins.raise prelude.size out.resolution.patched).shift prelude.size, hins, ?_,
      Instruction.op_raise, settles.aimed hshifted.patchable haccounted⟩
    rw [hshifted.atPc?, hins, Option.map_some]

-- CALLVALUE PUSH1 1 ADD PUSH1 8 JUMPI STOP JUMPDEST
def surcharge : List UInt8 := [0x34, 0x60, 0x01, 0x01, 0x60, 0x08, 0x57, 0x00, 0x5b]

def surchargeInit : List UInt8 :=
  [0x60, 0x09, 0x80, 0x60, 0x0b, 0x60, 0x00, 0x39, 0x60, 0x00, 0xf3] ++ surcharge

theorem decode_surcharge : Program.decode surcharge = ⟨[
    ⟨0, .callvalue, none⟩, ⟨1, .push 1, some [0x01]⟩, ⟨3, .add, none⟩, ⟨4, .push 1, some [0x08]⟩,
    ⟨6, .jumpi, none⟩, ⟨7, .stop, none⟩, ⟨8, .jumpdest, none⟩]⟩ := by
  cbv

theorem inject_surcharge :
    ∃ out, inject surchargeInit surcharge ⟨[0x60, 0x00, 0x50]⟩ 0 = .ok out ∧
      out.resolution.patched = [4] ∧ out.resolution.stats.forksSkipped = 0 := by
  have hinit : Program.decode surchargeInit = ⟨[
      ⟨0, .push 1, some [0x09]⟩, ⟨2, .dup 1, none⟩, ⟨3, .push 1, some [0x0b]⟩,
      ⟨5, .push 1, some [0x00]⟩, ⟨7, .codecopy, none⟩, ⟨8, .push 1, some [0x00]⟩, ⟨10, .ret, none⟩,
      ⟨11, .callvalue, none⟩, ⟨12, .push 1, some [0x01]⟩, ⟨14, .add, none⟩,
      ⟨15, .push 1, some [0x08]⟩, ⟨17, .jumpi, none⟩, ⟨18, .stop, none⟩, ⟨19, .jumpdest, none⟩]⟩ :=
    by cbv
  have hmap : (inject surchargeInit surcharge ⟨[0x60, 0x00, 0x50]⟩ 0).map
      (fun out => (out.resolution.patched, out.resolution.stats.forksSkipped)) = .ok ([4], 0) := by
    simp only [inject, Layout.locate, withoutMetadata, Nat.zero_le, if_true, Nat.sub_zero,
      List.take_length, bind, Except.bind, decode_surcharge, hinit]
    decide +kernel
  obtain ⟨out, h, hout⟩ := map_eq_ok_iff.mp hmap
  exact ⟨out, h, (Prod.mk.inj hout).1, (Prod.mk.inj hout).2⟩

open Machine in
theorem runs_in_lock_step_surcharge :
    ∃ out, inject surchargeInit surcharge ⟨[0x60, 0x00, 0x50]⟩ 0 = .ok out ∧
      ∀ oracle k,
        run (.stripped out.runtimeCode 0) oracle 3 k =
            (run (.stripped surcharge 0) oracle 0 k).shift 3 [4] ∧
          ∀ fault, (run (.stripped surcharge 0) oracle 0 k).status ≠ .failed fault := by
  have ⟨out, h, hpatched, hskip⟩ := inject_surcharge
  have hstripped : Program.stripped surcharge 0 = Program.decode surcharge := by
    rw [Program.stripped, Nat.sub_zero, List.take_length]
  have hp : (Program.stripped surcharge 0).JumpsAtOnce [4] := by
    intro push jump hpush hpc hjump
    rw [hstripped, decode_surcharge] at hpush hjump
    rw [List.mem_singleton.mp hpc] at hpush
    cases hpush
    cases hjump
    rfl
  refine ⟨out, h, fun oracle k => ?_⟩
  have ⟨hrun, hfault, _⟩ := runs_in_lock_step h whole_push_pop hskip oracle k
    fun j _ pc ins hpc hins hn =>
      not_inspects_of_unpatched (unpatched_run (hpatched ▸ hp) oracle j hpc hins) hn.inspects
  exact ⟨hpatched ▸ hrun, hfault⟩

-- One push is a target on one path and the operand of a comparison on another.
def compared : List UInt8 :=
  [0x60, 0x0f, 0x34, 0x60, 0x0d, 0x57, 0x60, 0x0f, 0x14, 0x60, 0x0f, 0x57, 0x00, 0x5b, 0x56, 0x5b,
    0x00]

def comparedInit : List UInt8 :=
  [0x60, 0x11, 0x80, 0x60, 0x0b, 0x60, 0x00, 0x39, 0x60, 0x00, 0xf3] ++ compared

theorem decode_compared : Program.decode compared = ⟨[
    ⟨0, .push 1, some [0x0f]⟩, ⟨2, .callvalue, none⟩, ⟨3, .push 1, some [0x0d]⟩, ⟨5, .jumpi, none⟩,
    ⟨6, .push 1, some [0x0f]⟩, ⟨8, .eq, none⟩, ⟨9, .push 1, some [0x0f]⟩, ⟨11, .jumpi, none⟩,
    ⟨12, .stop, none⟩, ⟨13, .jumpdest, none⟩, ⟨14, .jump, none⟩, ⟨15, .jumpdest, none⟩,
    ⟨16, .stop, none⟩]⟩ := by
  cbv

theorem inject_compared :
    ∃ out, inject comparedInit compared ⟨[0x5b]⟩ 0 = .ok out ∧
      out.runtimeCode = [0x5b, 0x60, 0x10, 0x34, 0x60, 0x0e, 0x57, 0x60, 0x0f, 0x14, 0x60, 0x10,
        0x57, 0x00, 0x5b, 0x56, 0x5b, 0x00] ∧
      out.resolution.stats.forksSkipped = 0 := by
  have hinit : Program.decode comparedInit = ⟨[
      ⟨0, .push 1, some [0x11]⟩, ⟨2, .dup 1, none⟩, ⟨3, .push 1, some [0x0b]⟩,
      ⟨5, .push 1, some [0x00]⟩, ⟨7, .codecopy, none⟩, ⟨8, .push 1, some [0x00]⟩, ⟨10, .ret, none⟩,
      ⟨11, .push 1, some [0x0f]⟩, ⟨13, .callvalue, none⟩, ⟨14, .push 1, some [0x0d]⟩,
      ⟨16, .jumpi, none⟩, ⟨17, .push 1, some [0x0f]⟩, ⟨19, .eq, none⟩, ⟨20, .push 1, some [0x0f]⟩,
      ⟨22, .jumpi, none⟩, ⟨23, .stop, none⟩, ⟨24, .jumpdest, none⟩, ⟨25, .jump, none⟩,
      ⟨26, .jumpdest, none⟩, ⟨27, .stop, none⟩]⟩ := by cbv
  have hmap : (inject comparedInit compared ⟨[0x5b]⟩ 0).map
      (fun out => (out.runtimeCode, out.resolution.stats.forksSkipped)) =
      .ok ([0x5b, 0x60, 0x10, 0x34, 0x60, 0x0e, 0x57, 0x60, 0x0f, 0x14, 0x60, 0x10, 0x57, 0x00,
        0x5b, 0x56, 0x5b, 0x00], 0) := by
    simp only [inject, Layout.locate, withoutMetadata, Nat.zero_le, if_true, Nat.sub_zero,
      List.take_length, bind, Except.bind, decode_compared, hinit]
    decide +kernel
  obtain ⟨out, h, hout⟩ := map_eq_ok_iff.mp hmap
  exact ⟨out, h, (Prod.mk.inj hout).1, (Prod.mk.inj hout).2⟩

open Machine in
theorem lock_step_lost_at_comparison :
    ¬∀ (init deployed : List UInt8) (prelude : Prelude) (suffix : Nat) (out : Injection),
      inject init deployed prelude suffix = .ok out → (Program.decode prelude.bytes).Whole →
      out.resolution.stats.forksSkipped = 0 → ∀ oracle k,
      (run (.stripped out.runtimeCode suffix) oracle prelude.size k).status =
        (run (.stripped deployed suffix) oracle 0 k).status.shift prelude.size := by
  intro h
  have ⟨out, hout, hbytes, hskip⟩ := inject_compared
  have hprelude : Program.decode [0x5b] = ⟨[⟨0, .jumpdest, none⟩]⟩ := by cbv
  have hw : (Program.decode [0x5b]).Whole := by
    simp [hprelude, Program.Whole, Instruction.isTruncated, Opcode.width]
  have hruntime : Program.decode [0x5b, 0x60, 0x10, 0x34, 0x60, 0x0e, 0x57, 0x60, 0x0f, 0x14, 0x60,
      0x10, 0x57, 0x00, 0x5b, 0x56, 0x5b, 0x00] = ⟨[
      ⟨0, .jumpdest, none⟩, ⟨1, .push 1, some [0x10]⟩, ⟨3, .callvalue, none⟩,
      ⟨4, .push 1, some [0x0e]⟩, ⟨6, .jumpi, none⟩, ⟨7, .push 1, some [0x0f]⟩, ⟨9, .eq, none⟩,
      ⟨10, .push 1, some [0x10]⟩, ⟨12, .jumpi, none⟩, ⟨13, .stop, none⟩, ⟨14, .jumpdest, none⟩,
      ⟨15, .jump, none⟩, ⟨16, .jumpdest, none⟩, ⟨17, .stop, none⟩]⟩ := by cbv
  have hstatus := h _ _ _ _ out hout hw hskip (fun _ => 0) 8
  simp only [Program.stripped, hbytes, Nat.sub_zero, List.take_length, decode_compared, hruntime]
    at hstatus
  revert hstatus
  decide +kernel

end Splice
