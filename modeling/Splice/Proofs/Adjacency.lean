import Splice.Proofs.Guarded.Exploration
import Splice.Proofs.Resolution

namespace Splice

namespace Step

variable {p : Program} {ins : Instruction} {i : Nat} {s : Stack}

theorem step_eq_map_execute (p : Program) (ins : Instruction) (i : Nat) (s : Stack) :
    step p ins i s =
      (execute p ins i s).map fun e => (e.stack, positionAt p ins e.next, e.seen) := by
  cases h : execute p ins i s with
  | error e => simp [step, h, bind, Except.bind, Except.map]
  | ok e =>
    have hdelta : ¬((e.stack.depth : Int) - s.depth ≠ ins.op.delta) := by
      have := (does_of_execute h).depth_eq
      rw [Opcode.delta]
      omega
    simp only [step, h, bind, Except.bind, Except.map, if_neg hdelta, positionAt]
    split <;> rfl

theorem execute_of_isPush (hpush : ins.op.isPush) (hw : ins.op.width ≤ 32)
    (room : s.depth < Stack.limit) :
    execute p ins i s =
      .ok ⟨⟨.pushed ins.pc (.ofBytes ins.immediate) :: s.slots⟩, i + 1, none⟩ := by
  simp only [execute]
  split
  case h_1 hop =>
    rw [Stack.push_of_lt room, immediate_of_push0 hop]
    rfl
  case h_2 n hop =>
    have hle : ¬32 < ins.immediate.length := by
      rw [Instruction.length_immediate]
      exact Nat.not_lt.mpr hw
    simp only [Value.ofImmediate, if_neg hle, bind, Except.bind, Stack.push_of_lt room]
    rfl
  all_goals simp_all [Opcode.isPush]

-- A jump under whose target there is nothing that could keep it from being taken.
def Goes (ins : Instruction) (s : Stack) : Prop :=
  ins.op = .jump ∨
    ins.op = .jumpi ∧ ∃ v c, s.peek? 0 = some v ∧ v.word? = some c ∧ c ≠ 0

theorem execute_of_goes (h : Goes ins s) (target : Value) :
    ∃ rest, execute p ins i ⟨target :: s.slots⟩ =
      (jumpTo p ins.pc target).map fun (next, seen) => ⟨rest, next, some seen⟩ := by
  rcases h with hop | ⟨hop, v, c, hv, hc, hne⟩
  case inl =>
    refine ⟨s, ?_⟩
    simp only [execute, hop]
    rfl
  case inr =>
    obtain ⟨_ | ⟨condition, rest⟩⟩ := s
    case nil => simp [Stack.peek?] at hv
    case cons =>
      obtain rfl : condition = v := by simpa [Stack.peek?] using hv
      refine ⟨⟨rest⟩, ?_⟩
      have hpop := Stack.popMany_of_le (s := ⟨target :: condition :: rest⟩) (n := 2)
        (by simp [Stack.depth]) .jumpi
      simp only [execute, hop, hpop, Stack.Outcome.settle, bind, Except.bind,
        List.take_succ_cons, List.getD_cons_succ, List.getD_cons_zero, hc, if_neg hne]
      cases jumpTo p ins.pc target <;> rfl

theorem positionAt_of_lt {next : Nat} (hop : ins.op.isPush ∨ ins.op.isJump) (h : next < p.size) :
    positionAt p ins next = .running next := by
  have hop : ¬ins.op.isTerminal := by
    cases hop' : ins.op <;> simp_all [Opcode.isPush, Opcode.isJump, Opcode.isTerminal] <;> rfl
  rw [positionAt, if_neg (by simp [hop, h])]

theorem Goes.isJump (h : Goes ins s) : ins.op.isJump := by
  rcases h with hop | ⟨hop, _⟩ <;> simp [hop, Opcode.isJump]

theorem step_of_isPush (hpush : ins.op.isPush) (hw : ins.op.width ≤ 32)
    (room : s.depth < Stack.limit) (hi : i + 1 < p.size) :
    step p ins i s =
      .ok (⟨.pushed ins.pc (.ofBytes ins.immediate) :: s.slots⟩, .running (i + 1), none) := by
  rw [step_eq_map_execute, execute_of_isPush hpush hw room, Except.map,
    positionAt_of_lt (.inl hpush) hi]

theorem step_of_goes (h : Goes ins s) (pc : Nat) (word : Word) :
    (∃ s', ∀ d k, destination? p word = some (d, k) → k < p.size →
        step p ins i ⟨.pushed pc word :: s.slots⟩ =
          .ok (s', .running k, some (.jump ins.pc ⟨pc, false, .traced⟩ (some d)))) ∧
      (destination? p word = none →
        step p ins i ⟨.pushed pc word :: s.slots⟩ = .error (.invalidJump ins.pc word)) := by
  have ⟨s', hexec⟩ := execute_of_goes (p := p) (i := i) h (.pushed pc word)
  have hpushed : pushedTarget ins.pc (.pushed pc word) = .ok (word, ⟨pc, false, .traced⟩) := rfl
  simp only [step_eq_map_execute, hexec, jumpTo, hpushed, bind, Except.bind]
  refine ⟨⟨s', fun d k hd hlt => ?_⟩, fun hnone => ?_⟩
  · simp only [hd, Except.map, positionAt_of_lt (.inr h.isJump) hlt]
  · simp only [hnone, Except.map]

end Step

theorem Program.Tiled.exists_indexOf? {p : Program} (h : p.Tiled) {pc : Nat}
    (hpc : p.isJumpdest pc) : ∃ k, p.indexOf? pc = some k ∧ k < p.size := by
  have ⟨ins, hins, _⟩ := isJumpdest_iff.mp hpc
  have ⟨hm, heq⟩ := h.atPc?_eq_some_iff.mp hins
  have ⟨k, hlt, hk⟩ := List.getElem_of_mem hm
  exact ⟨k, h.indexOf?_eq_some_iff.mpr ⟨ins, List.getElem?_eq_some_iff.mpr ⟨hlt, hk⟩, heq⟩, hlt⟩

namespace Exploration

namespace Session

def execute (p : Program) (ins : Instruction) (i : Nat) (s : Stack) (t : Session) :
    Except Error (Stack × Position × Session) := do
  let (s, position, seen) ← Step.step p ins i s
  return (s, position, t.observe seen)

def jumpSite? (t : Session) (pc : Nat) : Option JumpSite :=
  t.analysis.jumps.find? (·.pc = pc)

theorem jumpSite?_observe_jump (t : Session) (pc : Nat) (o : Origin) (d : Option Nat) :
    (t.observe (some (.jump pc o d))).jumpSite? pc = (t.jumpSite? pc).map (·.record o d) := by
  have hpc : ∀ site : JumpSite,
      (if site.pc = pc then site.record o d else site).pc = pc ↔ site.pc = pc := by
    intro site
    split <;> simp_all
  simp only [jumpSite?, observe, Analysis.record, List.find?_map, Function.comp_def, hpc]
  cases h : t.analysis.jumps.find? (·.pc = pc) with
  | none => rfl
  | some site =>
    have hsite : site.pc = pc := by simpa using List.find?_some h
    simp [hsite]

end Session

-- Exploring goes on from instruction to instruction by `Session.execute`.
theorem walk_succ_eq_execute {policy : Policy} {p : Program} {deeper : Option Explorer}
    {rounds i : Nat} {s : Stack} {t : Session} {ins : Instruction} (get : p.get? i = some ins)
    (left : ¬policy.maxSteps ≤ t.stats.steps) :
    walk policy p deeper (rounds + 1) s (.running i) t =
      (if ins.op = .jumpi then fork policy deeper ins.pc i s t else .ok (s, t)) >>= fun (s, t) =>
        t.execute p ins i s >>= fun (s, position, t) =>
          walk policy p deeper rounds s position t.countStep := by
  rw [walk_succ get left]
  apply congrArg
  funext (s, t)
  simp only [Session.execute]
  cases Step.step p ins i s <;> rfl

end Exploration

open Program Exploration

-- Narrowing the word that a push supplies comes to what shifting in the bytes of its immediate does.
theorem Instruction.offset?_ofBytes_immediate {push : Instruction} (h : push.op.width ≤ 32) :
    (Word.ofBytes push.immediate).offset? = push.offset? := by
  refine Option.ext fun n => ?_
  rw [Word.offset?_eq_some_iff, offset?_eq_some_iff, toNat_ofBytes_immediate h]

-- A jump right behind a push is resolved to the same effect by following it and by looking at the
-- two alone, however wide the immediate is.
theorem rescue_agrees_with_execution {code : List UInt8} {i : Nat} {push jump : Instruction}
    (hpush : (decode code).get? i = some push) (hop : push.op.isPush)
    (hjump : (decode code).get? (i + 1) = some jump) {s : Stack} (room : s.depth < Stack.limit)
    (goes : Step.Goes jump s) {t : Session}
    (fresh : t.jumpSite? jump.pc = some (.fresh jump.pc jump.op)) :
    ∃ s₁, t.execute (decode code) push i s = .ok (s₁, .running (i + 1), t) ∧
      ((push.value < BigEndian.bound 8 ∧ (decode code).isJumpdest push.value ∧
          (∃ k s₂ t₂, (decode code).indexOf? push.value = some k ∧
            t.execute (decode code) jump (i + 1) s₁ = .ok (s₂, .running k, t₂) ∧
            t₂.jumpSite? jump.pc =
              some ⟨jump.pc, jump.op, [⟨push.pc, false, .traced⟩], [push.value]⟩) ∧
          Resolution.rescue (decode code) (.fresh jump.pc jump.op) =
            .ok ⟨jump.pc, jump.op, [⟨push.pc, false, .adjacent⟩], [push.value]⟩) ∨
        (¬(push.value < BigEndian.bound 8 ∧ (decode code).isJumpdest push.value) ∧
          t.execute (decode code) jump (i + 1) s₁ =
            .error (.invalidJump jump.pc (.ofBytes push.immediate)) ∧
          Resolution.rescue (decode code) (.fresh jump.pc jump.op) =
            .error (.invalidJump jump.pc (.ofBytes push.immediate)))) := by
  have hw : push.op.width ≤ 32 := by
    obtain ⟨b, hb⟩ := exists_ofByte_of_mem_decodeFrom (List.mem_of_getElem? hpush)
    exact hb ▸ Opcode.width_ofByte_le b
  obtain ⟨hi, _⟩ := List.getElem?_eq_some_iff.mp hjump
  have hbefore : (decode code).PushBefore (JumpSite.fresh jump.pc jump.op).pc push :=
    ⟨i, jump, hpush, hop, hjump, rfl⟩
  obtain ⟨⟨s₂, hgo⟩, hfail⟩ := Step.step_of_goes (p := decode code) (i := i + 1) goes push.pc
    (.ofBytes push.immediate)
  rw [Step.destination?, Instruction.offset?_ofBytes_immediate hw] at hgo hfail
  refine ⟨⟨.pushed push.pc (.ofBytes push.immediate) :: s.slots⟩, ?_, ?_⟩
  · rw [Session.execute, Step.step_of_isPush hop hw room hi]
    rfl
  cases hd : push.offset?.filter (decode code).isJumpdest with
  | some d =>
    obtain ⟨hoffset, hvalid⟩ := Option.filter_eq_some_iff.mp hd
    obtain ⟨hlt, rfl⟩ := Instruction.offset?_eq_some_iff.mp hoffset
    obtain ⟨k, hk, hsize⟩ := (tiled_decode code).exists_indexOf? hvalid
    refine .inl ⟨hlt, hvalid,
      ⟨k, s₂, t.observe (some (.jump jump.pc ⟨push.pc, false, .traced⟩ (some push.value))), hk,
        ?_, ?_⟩, ?_⟩
    · rw [Session.execute, hgo push.value k (by simp [hd, hk]) hsize]
      rfl
    · rw [Session.jumpSite?_observe_jump, fresh]
      rfl
    · rw [Resolution.rescue_of_filter_eq_some hbefore hd]
      rfl
  | none =>
    refine .inr ⟨fun hvalid => ?_, ?_, ?_⟩
    · have hoffset := Instruction.offset?_eq_some_iff.mpr ⟨hvalid.1, rfl⟩
      simp [hoffset, hvalid.2] at hd
    · rw [Session.execute, hfail (by rw [hd, Option.bind_none])]
      rfl
    · rw [Resolution.rescue_of_filter_eq_none hbefore hd]
      rfl

-- PUSH9 JUMPI JUMPDEST
def pushNine (highest : UInt8) : List UInt8 :=
  [0x68, highest, 0, 0, 0, 0, 0, 0, 0, 0x0b, 0x57, 0x5b]

theorem rescue_agrees_with_execution_pushNine :
    (∃ s₁ s₂ t₂,
      (Session.start (decode (pushNine 0))).execute (decode (pushNine 0))
          ⟨0, .push 9, some [0, 0, 0, 0, 0, 0, 0, 0, 0x0b]⟩ 0 ⟨[.constant 1]⟩ =
        .ok (s₁, .running 1, .start (decode (pushNine 0))) ∧
      (Session.start (decode (pushNine 0))).execute (decode (pushNine 0)) ⟨10, .jumpi, none⟩ 1 s₁ =
        .ok (s₂, .running 2, t₂) ∧
      t₂.jumpSite? 10 = some ⟨10, .jumpi, [⟨0, false, .traced⟩], [11]⟩ ∧
      Resolution.rescue (decode (pushNine 0)) (.fresh 10 .jumpi) =
        .ok ⟨10, .jumpi, [⟨0, false, .adjacent⟩], [11]⟩) ∧
    ∃ s₁,
      (Session.start (decode (pushNine 1))).execute (decode (pushNine 1))
          ⟨0, .push 9, some [1, 0, 0, 0, 0, 0, 0, 0, 0x0b]⟩ 0 ⟨[.constant 1]⟩ =
        .ok (s₁, .running 1, .start (decode (pushNine 1))) ∧
      (Session.start (decode (pushNine 1))).execute (decode (pushNine 1)) ⟨10, .jumpi, none⟩ 1 s₁ =
        .error (.invalidJump 10 0x1000000000000000b) ∧
      Resolution.rescue (decode (pushNine 1)) (.fresh 10 .jumpi) =
        .error (.invalidJump 10 0x1000000000000000b) := by
  constructor
  case left =>
    obtain ⟨s₁, hpush, hagree⟩ := @rescue_agrees_with_execution (pushNine 0) 0
      ⟨0, .push 9, some [0, 0, 0, 0, 0, 0, 0, 0, 0x0b]⟩ ⟨10, .jumpi, none⟩ (by cbv) rfl (by cbv)
      ⟨[.constant 1]⟩ (by decide) (.inr ⟨rfl, .constant 1, 1, rfl, rfl, by decide⟩)
      (.start (decode (pushNine 0))) (by cbv)
    rcases hagree with ⟨_, _, ⟨k, s₂, t₂, hk, hjump, hsite⟩, hrescue⟩ | ⟨hinvalid, _⟩
    case inl =>
      have hindex : (decode (pushNine 0)).indexOf? 11 = some 2 := by cbv
      obtain rfl : k = 2 := Option.some.inj (hk.symm.trans hindex)
      exact ⟨s₁, s₂, t₂, hpush, hjump, hsite, hrescue⟩
    case inr =>
      have hvalid : (decode (pushNine 0)).isJumpdest 11 := by cbv
      exact absurd ⟨by decide, hvalid⟩ hinvalid
  case right =>
    obtain ⟨s₁, hpush, hagree⟩ := @rescue_agrees_with_execution (pushNine 1) 0
      ⟨0, .push 9, some [1, 0, 0, 0, 0, 0, 0, 0, 0x0b]⟩ ⟨10, .jumpi, none⟩ (by cbv) rfl (by cbv)
      ⟨[.constant 1]⟩ (by decide) (.inr ⟨rfl, .constant 1, 1, rfl, rfl, by decide⟩)
      (.start (decode (pushNine 1))) (by cbv)
    rcases hagree with ⟨hlt, _⟩ | ⟨_, hjump, hrescue⟩
    case inl => exact absurd hlt (by decide)
    case inr => exact ⟨s₁, hpush, hjump, hrescue⟩

end Splice
