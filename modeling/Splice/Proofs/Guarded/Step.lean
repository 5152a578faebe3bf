import Splice.Proofs.Branch
import Splice.Proofs.Guarded.Fold
import Splice.Proofs.Guarded.Program

namespace Splice

namespace Opcode

variable {op : Opcode}

theorem arity_of_isPush (h : op.isPush) : op.inputs = 0 ∧ op.outputs = 1 := by
  cases op with
  | push0 | push => exact ⟨rfl, rfl⟩
  | _ => cases h

theorem outputs_of_isPlain (h : op.isPlain) (ho : op.outputs ≠ 1) : op.outputs = 0 := by
  cases op <;> first | rfl | exact absurd rfl ho | cases h

end Opcode

namespace Step

theorem execute_of_isPlain {p : Program} {ins : Instruction} {here : Nat} {s : Stack}
    (h : ins.op.isPlain) : execute p ins here s = (do
      let (operands, s) ← (s.popMany ins.op ins.op.inputs).settle
      if ins.op.outputs = 1 then
        let ((), s) ← (s.push (← Fold.evaluate ins.op operands)).settle
        return ⟨s, here + 1, none⟩
      else
        return ⟨s, here + 1, none⟩) := by
  simp only [execute]
  split
  case h_9 => rfl
  all_goals simp_all [Opcode.isPlain]

variable {p : Program} {ins : Instruction} {here : Nat} {s : Stack} {e : Effect}

theorem Does.depth_eq (h : Does p ins here s e) :
    e.stack.depth + ins.op.inputs = s.depth + ins.op.outputs := by
  cases h with
  | push h =>
    obtain ⟨hin, hout⟩ := Opcode.arity_of_isPush h
    rw [hin, hout]
    rfl
  | @dup j _ h =>
    have hin : ins.op.inputs = j + 1 := h ▸ rfl
    have hout : ins.op.outputs = j + 2 := h ▸ rfl
    simp only [Stack.depth, List.length_cons, List.length_set, hin, hout]
    omega
  | swap h =>
    have hsame : ins.op.inputs = ins.op.outputs := h ▸ rfl
    simp [Stack.depth, hsame]
  | jumpdest h =>
    have hsame : ins.op.inputs = ins.op.outputs := h ▸ rfl
    simp [hsame]
  | jump h slots | take h slots | pass h slots | copy h slots =>
    simp only [h, Stack.depth, slots, List.length_cons]
    rfl
  | compute _ inputs outputs =>
    simp only [Stack.depth, List.length_cons, List.length_drop, outputs] at *
    omega
  | consume h inputs outputs =>
    have hnone := Opcode.outputs_of_isPlain h outputs
    simp only [Stack.depth, List.length_drop, hnone] at *
    omega

theorem Does.depth_le (h : Does p ins here s e) (hs : s.depth ≤ Stack.limit) :
    e.stack.depth ≤ Stack.limit := by
  cases h with
  | push _ _ room => exact room
  | dup _ _ room => simpa [Stack.depth] using Nat.succ_le_of_lt room
  | swap => simpa [Stack.depth] using hs
  | jumpdest => exact hs
  | jump _ slots | take _ slots | pass _ slots | copy _ slots =>
    simp only [Stack.depth, slots, List.length_cons] at *
    omega
  | compute _ _ _ _ room => exact room
  | consume =>
    simp only [Stack.depth, List.length_drop] at *
    omega

end Step

def Observation.Sited (p : Program) : Observation → Prop
  | jump pc _ _ => pc ∈ p.jumps
  | copy pc _ => pc ∈ p.pcs (· = .codecopy)

theorem Step.Does.sited {p : Program} {ins : Instruction} {here : Nat} {s : Stack} {e : Effect}
    (h : Does p ins here s e) (hm : ins ∈ p.instructions) {o : Observation}
    (ho : e.seen = some o) : o.Sited p := by
  cases h with
  | jump hop | take hop | pass hop =>
    cases ho
    exact List.mem_map.mpr ⟨ins, List.mem_filter.mpr ⟨hm, by simp [hop, Opcode.isJump]⟩, rfl⟩
  | copy hop =>
    cases ho
    exact List.mem_map.mpr ⟨ins, List.mem_filter.mpr ⟨hm, by simp [hop]⟩, rfl⟩
  | _ => cases ho

namespace Guarded

-- The slots are a buffer that starts with the bottom of the stack.
def setSlot (s : Stack) (place : Nat) (v : Value) : Stack where
  slots := (s.slots.reverse.set place v).reverse

def push (s : Stack) (v : Value) : Guarded (Unit × Stack) :=
  if Stack.limit ≤ s.depth then throw .stackOverflow else pure ((), ⟨v :: s.slots⟩)

def popMany (s : Stack) (op : Opcode) (n : Nat) : Guarded (List Value × Stack) :=
  if s.depth < n then
    throw (.stackUnderflow op n s.depth)
  else do
    let cut ← sub s.depth n
    let popped ← slice s.slots.reverse cut s.depth
    let kept ← slice s.slots.reverse 0 cut
    return (popped.reverse, ⟨kept.reverse⟩)

def popArray (s : Stack) (op : Opcode) (n : Nat) : Guarded (List Value × Stack) := do
  let (popped, s) ← popMany s op n
  let array ← write (List.replicate n .unknown) 0 n popped
  return (array, s)

def swap (s : Stack) (i : Nat) : Guarded (Unit × Stack) := do
  let needed ← add i 1
  if s.depth < needed then
    throw (.stackUnderflow (.swap (i % 256)) needed s.depth)
  else
    let top ← sub s.depth 1
    let below ← sub top i
    let v ← index s.slots.reverse top
    let w ← index s.slots.reverse below
    return ((), setSlot (setSlot s top w) below v)

def dup (s : Stack) (i : Nat) : Guarded (Unit × Stack) :=
  if 0 < i ∧ i ≤ s.depth then do
    let place ← sub s.depth i
    let v ← index s.slots.reverse place
    push (setSlot s place v.copied) v.copied
  else
    throw (.stackUnderflow (.dup (i % 256)) i s.depth)

def peek? (s : Stack) (i : Nat) : Guarded (Option Value) := do
  let needed ← add i 1
  if needed ≤ s.depth then
    let v ← index s.slots.reverse (s.depth - needed)
    return some v
  else
    return none

def replace (s : Stack) (i : Nat) (v : Value) : Guarded Stack := do
  let needed ← add i 1
  if needed ≤ s.depth then
    let _ ← index s.slots.reverse (s.depth - needed)
    return setSlot s (s.depth - needed) v
  else
    return s

def destination? (p : Program) (word : Word) : Guarded (Option (Nat × Nat)) :=
  match word.offset? with
  | none => pure none
  | some d => do
    let valid ← isJumpdest p d
    return if valid then (p.indexOf? d).map (d, ·) else none

def jumpTo (p : Program) (pc : Nat) (target : Value) : Guarded (Nat × Observation) := do
  let (word, origin) ← ofExcept (Step.pushedTarget pc target)
  match ← destination? p word with
  | some (destination, next) => return (next, .jump pc origin (some destination))
  | none => throw (.invalidJump pc word)

def execute (p : Program) (ins : Instruction) (here : Nat) (s : Stack) : Guarded Step.Effect := do
  let next ← add here 1
  match ins.op with
  | .push0 =>
    let ((), s) ← push s (.pushed ins.pc 0)
    return ⟨s, next, none⟩
  | .push _ =>
    let ((), s) ← push s (← ofImmediate ins.pc (← immediate ins))
    return ⟨s, next, none⟩
  | .dup n =>
    let ((), s) ← dup s n
    return ⟨s, next, none⟩
  | .swap n =>
    let ((), s) ← swap s n
    return ⟨s, next, none⟩
  | .jumpdest => return ⟨s, next, none⟩
  | .jump =>
    let (operands, s) ← popArray s ins.op 1
    let target ← index operands 0
    let (next, seen) ← jumpTo p ins.pc target
    return ⟨s, next, some seen⟩
  | .jumpi =>
    let (operands, s) ← popArray s ins.op 2
    let target ← index operands 0
    let condition ← index operands 1
    match condition.word? with
    | none => throw (.undecidedCondition ins.pc)
    | some c =>
      if c = 0 then
        let seen ← ofExcept (Step.passBy ins.pc target)
        return ⟨s, next, some seen⟩
      else
        let (next, seen) ← jumpTo p ins.pc target
        return ⟨s, next, some seen⟩
  | .codecopy =>
    let (operands, s) ← popArray s ins.op 3
    let offset ← index operands 1
    return ⟨s, next, some (.copy ins.pc (Step.copySource offset))⟩
  | op =>
    let (operands, s) ← popMany s op op.inputs
    if op.outputs = 1 then
      let ((), s) ← push s (← evaluate op operands)
      return ⟨s, next, none⟩
    else
      return ⟨s, next, none⟩

def step (p : Program) (ins : Instruction) (here : Nat) (s : Stack) :
    Guarded (Stack × Position × Option Observation) := do
  let e ← execute p ins here s
  let realized ← difference e.stack.depth s.depth
  let declared ← difference ins.op.outputs ins.op.inputs
  if realized ≠ declared then
    throw (.deltaMismatch ins.pc ins.op declared realized)
  else if ins.op.isTerminal ∨ p.size ≤ e.next then
    return (e.stack, .halted, e.seen)
  else
    return (e.stack, .running e.next, e.seen)

section

variable {s : Stack} {i place : Nat}

theorem exists_peek? (h : i < s.depth) : ∃ v, s.peek? i = some v :=
  ⟨_, List.getElem?_eq_getElem h⟩

theorem peek?_eq_none (h : s.depth ≤ i) : s.peek? i = none :=
  List.getElem?_eq_none h

theorem index_slot {v : Value} (h : s.peek? i = some v) (hp : place + i + 1 = s.depth) :
    index s.slots.reverse place = pure v := by
  rw [Stack.depth] at hp
  have hi : s.slots.length - 1 - place = i := by omega
  exact index_eq (by rw [List.getElem?_reverse (by omega), hi]; exact h)

theorem setSlot_eq (s : Stack) (v : Value) (hp : place + i + 1 = s.depth) :
    setSlot s place v = s.set i v := by
  rw [Stack.depth] at hp
  simp only [setSlot, Stack.set, Stack.mk.injEq]
  refine List.ext_getElem? fun j => ?_
  by_cases hj : j < s.slots.length
  case neg =>
    rw [List.getElem?_eq_none (by simpa using hj), List.getElem?_eq_none (by simpa using hj)]
  case pos =>
    have hplace : place = s.slots.length - 1 - j ↔ i = j := by omega
    have hin : place < s.slots.length ↔ i < s.slots.length := by omega
    have hback : s.slots.length - 1 - (s.slots.length - 1 - j) = j := by omega
    rw [List.getElem?_reverse (by simpa using hj), List.length_set, List.length_reverse,
      List.getElem?_set, List.getElem?_set, List.getElem?_reverse (by omega), hback,
      List.length_reverse]
    simp only [hplace, hin]

theorem push_safe (s : Stack) (v : Value) : Safe (push s v) (s.push v).settle fun _ => True := by
  rw [push]
  split
  case isTrue h =>
    rw [Stack.push_of_ge h]
    exact .error rfl
  case isFalse h =>
    rw [Stack.push_of_lt (Nat.not_le.mp h)]
    exact .ok trivial

theorem popMany_safe (s : Stack) (op : Opcode) (n : Nat) :
    Safe (popMany s op n) (s.popMany op n).settle fun _ => True := by
  rw [popMany, Stack.popMany]
  split
  case isTrue h => exact .error rfl
  case isFalse h =>
    have hlen : s.slots.reverse.length = s.depth := List.length_reverse
    have hcut : s.depth - (s.depth - n) = n := by omega
    refine .after (sub_eq (Nat.not_lt.mp h)) ?_
    refine .after (slice_eq (Nat.sub_le ..) (Nat.le_of_eq hlen.symm)) ?_
    refine .after (slice_eq (Nat.zero_le _) (by omega)) ?_
    rw [List.take_of_length_le (Nat.le_of_eq hlen), List.drop_reverse, List.reverse_reverse,
      List.drop_zero, List.take_reverse, List.reverse_reverse]
    exact .of_pure (by rw [← Stack.depth, hcut]) trivial

theorem swap_safe (s : Stack) (h : i + 1 < usize) :
    Safe (swap s i) (s.swap i).settle fun _ => True := by
  refine .after (add_eq h) ?_
  rw [Stack.swap, ← Stack.peek?, ← Stack.peek?]
  split
  case isTrue hlt =>
    rw [peek?_eq_none (Nat.le_of_lt_succ hlt)]
    cases s.peek? 0 <;> exact .error rfl
  case isFalse hle =>
    obtain ⟨top, htop⟩ := exists_peek? (s := s) (i := 0) (by omega)
    obtain ⟨below, hbelow⟩ := exists_peek? (s := s) (i := i) (by omega)
    simp only [htop, hbelow]
    refine .after (sub_eq (by omega)) (.after (sub_eq (by omega)) ?_)
    refine .after (index_slot htop (by omega)) (.after (index_slot hbelow (by omega)) ?_)
    rw [setSlot_eq s below (i := 0) (by omega), setSlot_eq (i := i) _ _ (by simp; omega)]
    exact .ok trivial

theorem dup_safe (s : Stack) (n : Nat) : Safe (dup s n) (s.dup n).settle fun _ => True := by
  rw [dup]
  cases n with
  | zero => exact .error rfl
  | succ j =>
    split
    case isTrue h =>
      have ⟨v, hv⟩ := exists_peek? (s := s) (i := j) h.2
      have hslot : s.slots[j]? = some v := hv
      refine .after (sub_eq h.2) (.after (index_slot hv (by omega)) ?_)
      rw [setSlot_eq (i := j) _ _ (by omega)]
      simp only [Stack.dup, Nat.add_sub_cancel, hslot]
      exact push_safe _ _
    case isFalse h =>
      have hslot : s.slots[j]? = none := peek?_eq_none (by omega)
      simp only [Stack.dup, Nat.add_sub_cancel, hslot]
      exact .error rfl

theorem peek?_eq (s : Stack) (h : i + 1 < usize) : peek? s i = pure (s.peek? i) := by
  rw [peek?, add_eq h, pure_bind]
  split
  case isTrue hle =>
    have ⟨v, hv⟩ := exists_peek? (s := s) hle
    rw [index_slot hv (by omega), pure_bind, hv]
  case isFalse hle => rw [peek?_eq_none (by omega)]

theorem replace_eq (s : Stack) (v : Value) (h : i + 1 < usize) :
    replace s i v = pure (s.set i v) := by
  rw [replace, add_eq h, pure_bind]
  split
  case isTrue hle =>
    have ⟨w, hw⟩ := exists_peek? (s := s) hle
    rw [index_slot hw (by omega), pure_bind, setSlot_eq (i := i) _ _ (by omega)]
  case isFalse hle => rw [Stack.set_eq_self_of_peek? (peek?_eq_none (by omega))]

theorem popArray_bind {op : Opcode} {n : Nat} {α : Type} {f : List Value × Stack → Guarded α}
    {f' : List Value × Stack → Except Error α} {post : α → Prop}
    (hf : ∀ vs rest, s.slots = vs ++ rest → vs.length = n →
      Safe (f (vs, ⟨rest⟩)) (f' (vs, ⟨rest⟩)) post) :
    Safe (popArray s op n >>= f) ((s.popMany op n).settle >>= f') post := by
  rw [popArray, bind_assoc]
  refine (popMany_safe s op n).bind fun (vs, rest) ha _ => ?_
  obtain ⟨hn, rfl, rfl⟩ := Stack.popMany_eq_ok_iff.mp (Stack.settle_eq_ok_iff.mp ha)
  have hlen : (s.slots.take n).length = n := List.length_take_of_le hn
  refine .after (a := (s.slots.take n, ⟨s.slots.drop n⟩)) ?_ ?_
  · dsimp only
    rw [write_eq (Nat.le_of_eq List.length_replicate.symm) (by omega), pure_bind]
    simp
  · exact hf _ _ (List.take_append_drop ..).symm hlen

end

theorem pushedTarget_safe (pc : Nat) (target : Value) :
    Safe (ofExcept (Step.pushedTarget pc target)) (Step.pushedTarget pc target) fun _ => True := by
  rw [Step.pushedTarget]
  cases target.known with
  | pushed => exact .ok trivial
  | unknown | computed => exact .error rfl

theorem passBy_safe (pc : Nat) (target : Value) :
    Safe (ofExcept (Step.passBy pc target)) (Step.passBy pc target) fun _ => True := by
  rw [Step.passBy, Step.pushedTarget]
  cases target.known with
  | pushed => exact .ok trivial
  | unknown | computed => exact .error rfl

theorem destination?_eq (p : Program) (word : Word) : destination? p word =
    pure (Step.destination? p word) := by
  rw [destination?, Step.destination?]
  cases word.offset? with
  | none => rfl
  | some d =>
    dsimp only
    rw [isJumpdest_eq, pure_bind]
    cases h : p.isJumpdest d <;> simp [Option.filter, h]

theorem jumpTo_safe (p : Program) (pc : Nat) (target : Value) :
    Safe (jumpTo p pc target) (Step.jumpTo p pc target) fun _ => True := by
  refine (pushedTarget_safe pc target).bind fun (word, origin) _ _ => ?_
  dsimp only
  refine .after (destination?_eq p word) ?_
  cases Step.destination? p word with
  | some => exact .ok trivial
  | none => exact .error rfl

section

variable {p : Program} (hp : p.Sized)

include hp

-- The condition of a jump is decided before the jump is executed.
theorem execute_safe {ins : Instruction} (hm : ins ∈ p.instructions) {here : Nat}
    (hhere : here + 1 < usize) {s : Stack} (settled : ¬ins.Forks s) :
    Safe (execute p ins here s) (Step.execute p ins here s) fun _ => True := by
  refine .after (add_eq hhere) ?_
  split
  case h_1 hop =>
    simp only [Step.execute, hop]
    exact (push_safe s _).bind fun _ _ _ => .ok trivial
  case h_2 n hop =>
    simp only [Step.execute, hop]
    have hwidth : ins.immediate.length ≤ 32 := by
      rw [Instruction.length_immediate]
      exact hp.width_le hm
    refine .after (immediate_eq ins) ?_
    refine (ofImmediate_safe ins.pc hwidth).bind fun v _ _ => ?_
    exact (push_safe s v).bind fun _ _ _ => .ok trivial
  case h_3 n hop =>
    simp only [Step.execute, hop]
    exact (dup_safe s n).bind fun _ _ _ => .ok trivial
  case h_4 n hop =>
    simp only [Step.execute, hop]
    have harity : n + 1 < usize := by
      obtain ⟨b, hb⟩ := hp.ops ins hm
      have := (Opcode.arity_ofByte_le b).1
      rw [← hb, hop] at this
      have hsmall : 17 < usize := by decide
      exact Nat.lt_of_le_of_lt this hsmall
    exact (swap_safe s harity).bind fun _ _ _ => .ok trivial
  case h_5 hop =>
    simp only [Step.execute, hop]
    exact .ok trivial
  case h_6 hop =>
    simp only [Step.execute, hop]
    refine popArray_bind fun vs rest _ hlen => ?_
    obtain ⟨target, rfl⟩ := List.length_eq_one_iff.mp hlen
    refine .after (index_eq rfl) ?_
    exact (jumpTo_safe p ins.pc target).bind fun _ _ _ => .ok trivial
  case h_7 hop =>
    simp only [Step.execute, hop]
    refine popArray_bind fun vs rest hslots hlen => ?_
    obtain ⟨target, condition, rfl⟩ := List.length_eq_two.mp hlen
    refine .after (index_eq rfl) (.after (index_eq rfl) ?_)
    obtain ⟨c, hc⟩ : ∃ c, condition.word? = some c := by
      refine Option.isSome_iff_exists.mp (Bool.not_eq_false _ ▸ fun hunknown => settled ⟨hop, ?_⟩)
      exact ⟨condition, by simp [Stack.peek?, hslots], hunknown⟩
    simp only [List.getD_cons_zero, List.getD_cons_succ, hc]
    split
    case isTrue => exact (passBy_safe ins.pc target).bind fun _ _ _ => .ok trivial
    case isFalse => exact (jumpTo_safe p ins.pc target).bind fun _ _ _ => .ok trivial
  case h_8 hop =>
    simp only [Step.execute, hop]
    refine popArray_bind fun vs rest _ hlen => ?_
    obtain ⟨memory, offset, length, rfl⟩ := List.length_eq_three.mp hlen
    exact .after (index_eq rfl) (.ok trivial)
  case h_9 =>
    have hplain : ins.op.isPlain := by simp only [Opcode.isPlain]
    rw [Step.execute_of_isPlain hplain]
    refine (popMany_safe s ins.op ins.op.inputs).bind fun popped _ _ => ?_
    dsimp only
    split
    case isTrue =>
      refine (evaluate_safe ins.op popped.1).bind fun v _ _ => ?_
      exact (push_safe popped.2 v).bind fun _ _ _ => .ok trivial
    case isFalse => exact .ok trivial

theorem step_safe {ins : Instruction} (hm : ins ∈ p.instructions) {here : Nat}
    (hhere : here + 1 < usize) {s : Stack} (hs : s.depth ≤ Stack.limit)
    (settled : ¬ins.Forks s) :
    Safe (step p ins here s) (Step.step p ins here s) fun (s', _, seen) =>
      s'.depth ≤ Stack.limit ∧ ∀ o, seen = some o → o.Sited p := by
  have hlimit : Stack.limit < 2 ^ 63 := by decide
  refine (execute_safe hp hm hhere settled).bind fun e he _ => ?_
  have hdoes := Step.does_of_execute he
  have hdepth := hdoes.depth_le hs
  have hdelta := hdoes.depth_eq
  obtain ⟨b, hb⟩ := hp.ops ins hm
  have harity := hb ▸ Opcode.arity_ofByte_le b
  refine .after (difference_eq (by omega) (by omega)) ?_
  refine .after (difference_eq (by omega) (by omega)) ?_
  have heq : (e.stack.depth - s.depth : Int) = ins.op.outputs - ins.op.inputs := by omega
  simp only [Opcode.delta, heq, ne_eq, not_true_eq_false, ↓reduceIte]
  split <;> exact .ok ⟨hdepth, fun o => hdoes.sited hm⟩

end

end Guarded
end Splice
