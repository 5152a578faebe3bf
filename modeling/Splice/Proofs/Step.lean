import Splice.Proofs.Observation
import Splice.Proofs.Program
import Splice.Step

namespace Splice

theorem bind_eq_ok_iff {ε α β : Type} {x : Except ε α} {f : α → Except ε β} {b : β} :
    x >>= f = .ok b ↔ ∃ a, x = .ok a ∧ f a = .ok b := by
  cases x <;> simp [bind, Except.bind]

theorem map_eq_ok_iff {ε α β : Type} {x : Except ε α} {f : α → β} {b : β} :
    x.map f = .ok b ↔ ∃ a, x = .ok a ∧ f a = b := by
  cases x <;> simp [Except.map]

namespace Stack

variable {s s' : Stack}

theorem settle_eq_ok_iff {α : Type} {o : Outcome α} {a : α} :
    o.settle = .ok (a, s) ↔ o = (.ok a, s) := by
  obtain ⟨_ | _, _⟩ := o <;> simp [Outcome.settle]

theorem push_eq_ok_iff {v : Value} :
    s.push v = (.ok (), s') ↔ s.depth < limit ∧ s' = ⟨v :: s.slots⟩ := by
  by_cases h : s.depth < limit
  · simp [push, h, eq_comm]
  · simp [push, h]

theorem popMany_eq_ok_iff {op : Opcode} {n : Nat} {vs : List Value} :
    s.popMany op n = (.ok vs, s') ↔
      n ≤ s.depth ∧ vs = s.slots.take n ∧ s' = ⟨s.slots.drop n⟩ := by
  by_cases h : s.depth < n
  case pos =>
    have hn : ¬n ≤ s.depth := Nat.not_le.mpr h
    simp [popMany, h, hn]
  case neg =>
    have hn : n ≤ s.depth := Nat.not_lt.mp h
    simp [popMany, h, hn, eq_comm]

theorem bind_push_eq_ok_iff {α : Type} {v : Value} {f : Unit × Stack → Except Error α} {a : α} :
    (s.push v).settle >>= f = .ok a ↔ s.depth < limit ∧ f ((), ⟨v :: s.slots⟩) = .ok a := by
  constructor
  · intro h
    have ⟨⟨_, s'⟩, hs, h⟩ := bind_eq_ok_iff.mp h
    obtain ⟨room, rfl⟩ := push_eq_ok_iff.mp (settle_eq_ok_iff.mp hs)
    exact ⟨room, h⟩
  · intro ⟨room, h⟩
    exact bind_eq_ok_iff.mpr ⟨_, settle_eq_ok_iff.mpr (push_eq_ok_iff.mpr ⟨room, rfl⟩), h⟩

theorem bind_popMany_eq_ok_iff {α : Type} {op : Opcode} {n : Nat}
    {f : List Value × Stack → Except Error α} {a : α} :
    (s.popMany op n).settle >>= f = .ok a ↔
      n ≤ s.depth ∧ f (s.slots.take n, ⟨s.slots.drop n⟩) = .ok a := by
  constructor
  · intro h
    have ⟨⟨vs, s'⟩, hs, h⟩ := bind_eq_ok_iff.mp h
    obtain ⟨hd, rfl, rfl⟩ := popMany_eq_ok_iff.mp (settle_eq_ok_iff.mp hs)
    exact ⟨hd, h⟩
  · intro ⟨hd, h⟩
    exact bind_eq_ok_iff.mpr ⟨_, settle_eq_ok_iff.mpr (popMany_eq_ok_iff.mpr ⟨hd, rfl, rfl⟩), h⟩

theorem dup_eq_ok_iff {n : Nat} :
    s.dup n = (.ok (), s') ↔ ∃ j v, n = j + 1 ∧ s.slots[j]? = some v ∧ s.depth < limit ∧
      s' = ⟨v.copied :: s.slots.set j v.copied⟩ := by
  cases n with
  | zero => simp [dup]
  | succ j =>
    cases h : s.slots[j]? with
    | none => simp [dup, h]
    | some v => simp [dup, h, push_eq_ok_iff, depth]

theorem swap_eq_ok_iff {n : Nat} :
    s.swap n = (.ok (), s') ↔ ∃ top below, s.slots[0]? = some top ∧ s.slots[n]? = some below ∧
      s' = ⟨(s.slots.set 0 below).set n top⟩ := by
  simp only [swap]
  cases s.slots[0]? <;> cases s.slots[n]? <;> simp [eq_comm]

end Stack

namespace Opcode

-- A plain operation takes its operands and leaves its result, if it has one. Nothing about it
-- depends on where the operands come from.
def isPlain : Opcode → Bool
  | push0 | push _ | dup _ | swap _ | jumpdest | jump | jumpi | codecopy => false
  | _ => true

theorem not_isJump_of_isPlain {op : Opcode} (h : op.isPlain) : op.isJump = false := by
  cases op <;> simp_all [isPlain, isJump]

theorem ne_codecopy_of_isPlain {op : Opcode} (h : op.isPlain) : op ≠ .codecopy := by
  rintro rfl
  simp [isPlain] at h

theorem ne_codecopy_of_isPush {op : Opcode} (h : op.isPush) : op ≠ .codecopy := by
  rintro rfl
  simp [isPush] at h

end Opcode

namespace Step

inductive Does (p : Program) (ins : Instruction) (here : Nat) (s : Stack) : Effect → Prop
  | push (h : ins.op.isPush) (width : ins.op.width ≤ 32) (room : s.depth < Stack.limit) :
    Does p ins here s ⟨⟨.pushed ins.pc (.ofBytes ins.immediate) :: s.slots⟩, here + 1, none⟩
  | dup {j v} (h : ins.op = .dup (j + 1)) (source : s.slots[j]? = some v)
      (room : s.depth < Stack.limit) :
    Does p ins here s ⟨⟨v.copied :: s.slots.set j v.copied⟩, here + 1, none⟩
  | swap {n top below} (h : ins.op = .swap n) (first : s.slots[0]? = some top)
      (second : s.slots[n]? = some below) :
    Does p ins here s ⟨⟨(s.slots.set 0 below).set n top⟩, here + 1, none⟩
  | jumpdest (h : ins.op = .jumpdest) : Does p ins here s ⟨s, here + 1, none⟩
  | jump {target rest origin word i} (h : ins.op = .jump) (slots : s.slots = target :: rest)
      (known : target.known = .pushed origin word) (valid : p.isJumpdest word.toNat)
      (index : p.indexOf? word.toNat = some i) :
    Does p ins here s
      ⟨⟨rest⟩, i, some (.jump ins.pc ⟨origin, target.duplicated, .traced⟩ (some word.toNat))⟩
  | take {target condition rest origin word c i} (h : ins.op = .jumpi)
      (slots : s.slots = target :: condition :: rest) (decided : condition.word? = some c)
      (holds : c ≠ 0) (known : target.known = .pushed origin word)
      (valid : p.isJumpdest word.toNat) (index : p.indexOf? word.toNat = some i) :
    Does p ins here s
      ⟨⟨rest⟩, i, some (.jump ins.pc ⟨origin, target.duplicated, .traced⟩ (some word.toNat))⟩
  | pass {target condition rest origin word} (h : ins.op = .jumpi)
      (slots : s.slots = target :: condition :: rest) (decided : condition.word? = some 0)
      (known : target.known = .pushed origin word) :
    Does p ins here s
      ⟨⟨rest⟩, here + 1, some (.jump ins.pc ⟨origin, target.duplicated, .traced⟩ none)⟩
  | copy {memory offset length rest} (h : ins.op = .codecopy)
      (slots : s.slots = memory :: offset :: length :: rest) :
    Does p ins here s ⟨⟨rest⟩, here + 1, some (.copy ins.pc (copySource offset))⟩
  | compute {v} (h : ins.op.isPlain) (inputs : ins.op.inputs ≤ s.depth)
      (outputs : ins.op.outputs = 1)
      (result : Fold.evaluate ins.op (s.slots.take ins.op.inputs) = .ok v)
      (room : (s.slots.drop ins.op.inputs).length < Stack.limit) :
    Does p ins here s ⟨⟨v :: s.slots.drop ins.op.inputs⟩, here + 1, none⟩
  | consume (h : ins.op.isPlain) (inputs : ins.op.inputs ≤ s.depth)
      (outputs : ins.op.outputs ≠ 1) :
    Does p ins here s ⟨⟨s.slots.drop ins.op.inputs⟩, here + 1, none⟩

theorem pushedTarget_eq_ok_iff {pc : Nat} {target : Value} {word : Word} {origin : Origin} :
    pushedTarget pc target = .ok (word, origin) ↔ ∃ o, target.known = .pushed o word ∧
      origin = ⟨o, target.duplicated, .traced⟩ := by
  simp only [pushedTarget]
  cases target.known with
  | unknown | computed => simp
  | pushed o w =>
    simp only [Except.ok.injEq, Prod.mk.injEq, Knowledge.pushed.injEq]
    grind

theorem destination?_eq_some_iff {p : Program} {word : Word} {d i : Nat} :
    destination? p word = some (d, i) ↔ word.toNat < BigEndian.bound 8 ∧
      p.isJumpdest word.toNat ∧ p.indexOf? word.toNat = some i ∧ word.toNat = d := by
  simp only [destination?, Option.bind_eq_some_iff, Option.filter_eq_some_iff,
    Word.offset?_eq_some_iff, Option.map_eq_some_iff, Prod.mk.injEq]
  constructor
  case mp =>
    rintro ⟨_, ⟨⟨hlt, rfl⟩, hv⟩, _, hi, rfl, rfl⟩
    exact ⟨hlt, hv, hi, rfl⟩
  case mpr =>
    rintro ⟨hlt, hv, hi, rfl⟩
    exact ⟨_, ⟨⟨hlt, rfl⟩, hv⟩, _, hi, rfl, rfl⟩

theorem jumpTo_eq_ok_iff {p : Program} {pc : Nat} {target : Value} {i : Nat} {seen : Observation} :
    jumpTo p pc target = .ok (i, seen) ↔ ∃ o word, target.known = .pushed o word ∧
      word.toNat < BigEndian.bound 8 ∧ p.isJumpdest word.toNat ∧
      p.indexOf? word.toNat = some i ∧
      seen = .jump pc ⟨o, target.duplicated, .traced⟩ (some word.toNat) := by
  simp only [jumpTo, bind_eq_ok_iff, Prod.exists, pushedTarget_eq_ok_iff]
  constructor
  case mp =>
    rintro ⟨word, origin, ⟨o, ho, rfl⟩, h⟩
    split at h
    case h_1 hd =>
      cases h
      obtain ⟨hlt, hv, hi, rfl⟩ := destination?_eq_some_iff.mp hd
      exact ⟨o, word, ho, hlt, hv, hi, rfl⟩
    case h_2 => cases h
  case mpr =>
    rintro ⟨o, word, ho, hlt, hv, hi, rfl⟩
    have hd := destination?_eq_some_iff.mpr ⟨hlt, hv, hi, rfl⟩
    exact ⟨word, _, ⟨o, ho, rfl⟩, by simp [hd]⟩

theorem passBy_eq_ok_iff {pc : Nat} {target : Value} {seen : Observation} :
    passBy pc target = .ok seen ↔ ∃ o word, target.known = .pushed o word ∧
      seen = .jump pc ⟨o, target.duplicated, .traced⟩ none := by
  simp only [passBy, bind_eq_ok_iff, Prod.exists, pushedTarget_eq_ok_iff, pure, Except.pure,
    Except.ok.injEq]
  constructor
  · rintro ⟨word, _, ⟨o, ho, rfl⟩, rfl⟩
    exact ⟨o, word, ho, rfl⟩
  · rintro ⟨o, word, ho, rfl⟩
    exact ⟨word, _, ⟨o, ho, rfl⟩, rfl⟩

theorem immediate_of_push0 {ins : Instruction} (h : ins.op = .push0) : ins.immediate = [] := by
  have := ins.length_immediate
  rw [h] at this
  exact List.eq_nil_of_length_eq_zero this

variable {p : Program} {ins : Instruction} {here : Nat} {s : Stack} {e : Effect}

theorem does_of_jumpi (hop : ins.op = .jumpi) (h : execute p ins here s = .ok e) :
    Does p ins here s e := by
  simp only [execute, hop] at h
  obtain ⟨hd, h⟩ := Stack.bind_popMany_eq_ok_iff.mp h
  obtain ⟨_ | ⟨target, _ | ⟨condition, rest⟩⟩⟩ := s
  case nil => simp [Stack.depth] at hd
  case cons.nil => simp [Stack.depth] at hd
  case cons.cons =>
    dsimp only [List.getD_cons_zero, List.getD_cons_succ, List.take_succ_cons] at h
    split at h
    case h_1 => simp at h
    case h_2 c hc =>
      split at h
      case isTrue hz =>
        obtain ⟨seen, hp, h⟩ := bind_eq_ok_iff.mp h
        cases h
        obtain ⟨o, word, hk, rfl⟩ := passBy_eq_ok_iff.mp hp
        exact .pass hop rfl (hz ▸ hc) hk
      case isFalse hnz =>
        obtain ⟨⟨i, seen⟩, hj, h⟩ := bind_eq_ok_iff.mp h
        cases h
        obtain ⟨o, word, hk, -, hv, hi, rfl⟩ := jumpTo_eq_ok_iff.mp hj
        exact .take hop rfl hc hnz hk hv hi

theorem does_of_execute (hexec : execute p ins here s = .ok e) : Does p ins here s e := by
  have h := hexec
  simp only [execute] at h
  split at h
  case h_1 hop =>
    obtain ⟨room, h⟩ := Stack.bind_push_eq_ok_iff.mp h
    cases h
    have hi : Word.ofBytes ins.immediate = 0 := by rw [immediate_of_push0 hop]; rfl
    exact hi ▸ .push (by simp [hop, Opcode.isPush]) (by simp [hop, Opcode.width]) room
  case h_2 n hop =>
    obtain ⟨v, hv, h⟩ := bind_eq_ok_iff.mp h
    obtain ⟨room, h⟩ := Stack.bind_push_eq_ok_iff.mp h
    cases h
    simp only [Value.ofImmediate, Instruction.length_immediate] at hv
    split at hv
    case isTrue => simp at hv
    case isFalse hw =>
      cases hv
      exact .push (by simp [hop, Opcode.isPush]) (Nat.not_lt.mp hw) room
  case h_3 n hop =>
    obtain ⟨⟨_, s'⟩, hs, h⟩ := bind_eq_ok_iff.mp h
    obtain ⟨j, v, rfl, hv, room, rfl⟩ := Stack.dup_eq_ok_iff.mp (Stack.settle_eq_ok_iff.mp hs)
    cases h
    exact .dup hop hv room
  case h_4 n hop =>
    obtain ⟨⟨_, s'⟩, hs, h⟩ := bind_eq_ok_iff.mp h
    obtain ⟨top, below, ht, hb, rfl⟩ := Stack.swap_eq_ok_iff.mp (Stack.settle_eq_ok_iff.mp hs)
    cases h
    exact .swap hop ht hb
  case h_5 hop =>
    cases h
    exact .jumpdest hop
  case h_6 hop =>
    obtain ⟨hd, h⟩ := Stack.bind_popMany_eq_ok_iff.mp h
    obtain ⟨⟨i, seen⟩, hj, h⟩ := bind_eq_ok_iff.mp h
    cases h
    obtain ⟨o, word, hk, -, hv, hi, rfl⟩ := jumpTo_eq_ok_iff.mp hj
    obtain ⟨_ | ⟨target, rest⟩⟩ := s
    case nil => simp [Stack.depth] at hd
    case cons => exact .jump hop rfl hk hv hi
  case h_7 hop => exact does_of_jumpi hop hexec
  case h_8 hop =>
    obtain ⟨hd, h⟩ := Stack.bind_popMany_eq_ok_iff.mp h
    cases h
    obtain ⟨_ | ⟨memory, _ | ⟨offset, _ | ⟨length, rest⟩⟩⟩⟩ := s
    case cons.cons.cons => exact .copy hop rfl
    all_goals simp [Stack.depth] at hd
  case h_9 =>
    have hplain : ins.op.isPlain := by simp only [Opcode.isPlain]
    obtain ⟨hd, h⟩ := Stack.bind_popMany_eq_ok_iff.mp h
    dsimp only at h
    split at h
    case isTrue ho =>
      obtain ⟨v, hv, h⟩ := bind_eq_ok_iff.mp h
      obtain ⟨room, h⟩ := Stack.bind_push_eq_ok_iff.mp h
      cases h
      exact .compute hplain hd ho hv room
    case isFalse ho =>
      cases h
      exact .consume hplain hd ho

theorem copySource_traced (offset : Value) : (copySource offset).Traced := by
  simp only [copySource]
  split <;> simp [CopySource.Traced]

theorem Does.traced (h : Does p ins here s e) {o : Observation} (ho : e.seen = some o) :
    o.Traced := by
  cases h with
  | jump | take | pass =>
    cases ho
    rfl
  | copy =>
    cases ho
    exact copySource_traced _
  | _ => cases ho

def positionAt (p : Program) (ins : Instruction) (next : Nat) : Position :=
  if ins.op.isTerminal ∨ p.size ≤ next then .halted else .running next

theorem does_of_step {s' : Stack} {position : Position} {seen : Option Observation}
    (h : step p ins here s = .ok (s', position, seen)) :
    ∃ next, Does p ins here s ⟨s', next, seen⟩ ∧ position = positionAt p ins next := by
  have ⟨e, he, h⟩ := bind_eq_ok_iff.mp h
  refine ⟨e.next, ?_⟩
  dsimp only at h
  split at h
  case isTrue => simp at h
  case isFalse =>
    simp only [positionAt]
    split at h <;> cases h <;> simp_all [does_of_execute he]

end Step
end Splice
