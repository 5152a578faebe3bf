import Mathlib.Data.List.Induction
import Splice.Abstract.Stack

namespace Splice

theorem Value.copied_eq_self_iff (v : Value) : v.copied = v ↔ v.duplicated = true := by
  rcases v with ⟨known, _ | _⟩ <;> simp [copied]

theorem Value.shape_copied_eq_iff (v : Value) :
    v.copied.shape = v.shape ↔ v.duplicated = true := by
  rcases v with ⟨known, _ | _⟩ <;> simp [copied, shape, isConstant, word?]

inductive Operation
  | push (v : Value)
  | pop
  | popMany (op : Opcode) (n : Nat)
  | swap (i : Nat)
  | dup (i : Nat)
  | replace (i : Nat) (v : Value)

namespace Stack

variable {s : Stack} {o : Operation}

def perform (s : Stack) : Operation → Bool × Stack
  | .push v => (s.push v).map Except.isOk id
  | .pop => s.pop.map Except.isOk id
  | .popMany op n => (s.popMany op n).map Except.isOk id
  | .swap i => (s.swap i).map Except.isOk id
  | .dup i => (s.dup i).map Except.isOk id
  | .replace i v => (s.replace i v).map Option.isSome id

def after (os : List Operation) : Stack :=
  os.foldl (fun s o => (s.perform o).2) empty

theorem after_concat (os : List Operation) (o : Operation) :
    after (os ++ [o]) = ((after os).perform o).2 := by
  simp [after]

inductive Performs (s : Stack) : Operation → Bool × Stack → Prop
  | push {v} (room : s.depth < limit) : Performs s (.push v) (true, ⟨v :: s.slots⟩)
  | full {v} (full : limit ≤ s.depth) : Performs s (.push v) (false, s)
  | pop {v rest} (top : s.slots = v :: rest) : Performs s .pop (true, ⟨rest⟩)
  | nothing (empty : s.slots = []) : Performs s .pop (false, s)
  | popMany {op n} (deep : n ≤ s.depth) : Performs s (.popMany op n) (true, ⟨s.slots.drop n⟩)
  | short {op n} (shallow : s.depth < n) : Performs s (.popMany op n) (false, s)
  | swap {i v w} (top : s.peek? 0 = some v) (below : s.peek? i = some w) :
    Performs s (.swap i) (true, ⟨(s.slots.set 0 w).set i v⟩)
  | alone {i} (shallow : s.depth ≤ i) : Performs s (.swap i) (false, s)
  | dup {i v} (slot : s.peek? i = some v) (room : s.depth < limit) :
    Performs s (.dup (i + 1)) (true, ⟨v.copied :: s.slots.set i v.copied⟩)
  | crowded {i v} (slot : s.peek? i = some v) (full : limit ≤ s.depth) :
    Performs s (.dup (i + 1)) (false, s.set i v.copied)
  | absent {i} (none : i = 0 ∨ s.peek? (i - 1) = none) : Performs s (.dup i) (false, s)
  | replace {i v w} (slot : s.peek? i = some w) : Performs s (.replace i v) (true, s.set i v)
  | missing {i v} (none : s.peek? i = none) : Performs s (.replace i v) (false, s)

theorem performs_swap (s : Stack) (i : Nat) : s.Performs (.swap i) (s.perform (.swap i)) := by
  cases htop : s.slots[0]? with
  | none =>
    have hempty : s.slots = [] := List.eq_nil_of_length_eq_zero (by simpa using htop)
    have hdepth : s.depth ≤ i := by simp [depth, hempty]
    simp only [perform, Stack.swap, htop]
    exact .alone hdepth
  | some v =>
    cases hslot : s.slots[i]? with
    | none =>
      simp only [perform, Stack.swap, htop, hslot]
      exact .alone (List.getElem?_eq_none_iff.mp hslot)
    | some w =>
      simp only [perform, Stack.swap, htop, hslot]
      exact .swap htop hslot

theorem performs_dup (s : Stack) (i : Nat) : s.Performs (.dup i) (s.perform (.dup i)) := by
  cases i with
  | zero => exact .absent (.inl rfl)
  | succ i =>
    cases hslot : s.slots[i]? with
    | none =>
      simp only [perform, Stack.dup, Nat.add_sub_cancel, hslot]
      exact .absent (.inr hslot)
    | some v =>
      -- The slot is flagged by now, and the stack is no deeper for that.
      have hdepth : depth ⟨s.slots.set i v.copied⟩ = s.depth := depth_set s i v.copied
      simp only [perform, Stack.dup, Nat.add_sub_cancel, hslot]
      by_cases h : s.depth < limit
      case pos =>
        rw [push_of_lt (hdepth ▸ h)]
        exact .dup hslot h
      case neg =>
        rw [push_of_ge (hdepth ▸ Nat.le_of_not_lt h)]
        exact .crowded hslot (Nat.le_of_not_lt h)

theorem performs (s : Stack) (o : Operation) : s.Performs o (s.perform o) := by
  cases o with
  | push v =>
    by_cases h : s.depth < limit
    case pos =>
      rw [perform, push_of_lt h]
      exact .push h
    case neg =>
      rw [perform, push_of_ge (Nat.le_of_not_lt h)]
      exact .full (Nat.le_of_not_lt h)
  | pop =>
    rcases s with ⟨_ | ⟨v, rest⟩⟩
    case nil => exact .nothing rfl
    case cons => exact .pop rfl
  | popMany op n =>
    by_cases h : s.depth < n
    case pos =>
      simp only [perform, popMany, if_pos h]
      exact .short h
    case neg =>
      rw [perform, popMany_of_le (Nat.le_of_not_lt h)]
      exact .popMany (Nat.le_of_not_lt h)
  | swap i => exact performs_swap s i
  | dup i => exact performs_dup s i
  | replace i v =>
    cases hslot : s.peek? i with
    | none =>
      simp only [perform, Stack.replace, hslot, set_eq_self_of_peek? hslot]
      exact .missing hslot
    | some w =>
      simp only [perform, Stack.replace, hslot]
      exact .replace hslot

theorem Performs.depth_le {r : Bool × Stack} (h : s.Performs o r) (bound : s.depth ≤ limit) :
    r.2.depth ≤ limit := by
  cases h with
  | push room => exact room
  | pop top =>
    simp only [depth, top, List.length_cons] at bound ⊢
    omega
  | popMany => simpa [depth] using Nat.le_add_right_of_le bound
  | swap => simpa [depth] using bound
  | dup _ room => simpa [depth] using Nat.succ_le_of_lt room
  | crowded | replace => simpa using bound
  | full | nothing | short | alone | absent | missing => exact bound

theorem depth_after_le (os : List Operation) : (after os).depth ≤ limit := by
  induction os using List.reverseRecOn with
  | nil => decide
  | append_singleton os o ih =>
    rw [after_concat]
    exact (performs _ o).depth_le ih

structure Crowds (s : Stack) (o : Operation) (i : Nat) (v : Value) : Prop where
  copies : o = .dup (i + 1)
  slot   : s.peek? i = some v
  full   : s.depth = limit

theorem Performs.crowds_or_unchanged {r : Bool × Stack} (h : s.Performs o r)
    (bound : s.depth ≤ limit) (failed : r.1 = false) : (∃ i v, s.Crowds o i v) ∨ r.2 = s := by
  cases h with
  | push | pop | popMany | swap | dup | replace => contradiction
  | full | nothing | short | alone | absent | missing => exact .inr rfl
  | crowded slot full => exact .inl ⟨_, _, rfl, slot, Nat.le_antisymm bound full⟩

theorem Crowds.perform {i : Nat} {v : Value} (h : s.Crowds o i v) :
    s.perform o = (false, s.set i v.copied) := by
  obtain ⟨rfl, slot, full⟩ := h
  have h := s.performs (.dup (i + 1))
  generalize s.perform (.dup (i + 1)) = r at h ⊢
  cases h with
  | dup _ room => omega
  | crowded other =>
    obtain rfl : _ = v := Option.some.inj (other.symm.trans slot)
    rfl
  | absent none => simp [slot] at none

theorem map_set_eq_iff {α : Type} (f : Value → α) {i : Nat} {v : Value} (h : s.peek? i = some v)
    (w : Value) : (s.set i w).slots.map f = s.slots.map f ↔ f w = f v := by
  obtain ⟨hi, rfl⟩ := List.getElem?_eq_some_iff.mp h
  rw [set, List.map_set]
  constructor
  case mp =>
    intro same
    simpa [hi] using congrArg (·[i]?) same
  case mpr =>
    intro same
    rw [same, ← List.map_set, List.set_getElem_self]

theorem set_copied_eq_self_iff {i : Nat} {v : Value} (h : s.peek? i = some v) :
    s.set i v.copied = s ↔ v.duplicated = true := by
  rcases s with ⟨slots⟩
  rw [set, mk.injEq, ← v.copied_eq_self_iff]
  simpa [set] using map_set_eq_iff id h v.copied

theorem shape_set_copied_iff {i : Nat} {v : Value} (h : s.peek? i = some v) :
    (s.set i v.copied).shape = s.shape ↔ v.duplicated = true := by
  rw [shape, shape, List.reverse_inj, map_set_eq_iff _ h, v.shape_copied_eq_iff]

-- An operation that fails changes nothing, unless it is a copy for which there is no room: that
-- leaves the flag on the slot that it did not copy.
theorem failure_flags_at_most (os : List Operation) (o : Operation) :
    ((after os).perform o).2.depth ≤ limit ∧
    ((∀ i v, ¬(after os).Crowds o i v) → ((after os).perform o).1 = false →
      ((after os).perform o).2 = after os) ∧
    ∀ i v, (after os).Crowds o i v →
      (after os).perform o = (false, (after os).set i v.copied) ∧
      ((after os).set i v.copied = after os ↔ v.duplicated = true) ∧
      (((after os).set i v.copied).shape = (after os).shape ↔ v.duplicated = true) := by
  have bound : (after os).depth ≤ limit := depth_after_le os
  refine ⟨(performs _ o).depth_le bound, fun roomy failed => ?_, fun i v crowds => ?_⟩
  case refine_1 =>
    exact ((performs _ o).crowds_or_unchanged bound failed).resolve_left
      fun ⟨i, v, crowds⟩ => roomy i v crowds
  case refine_2 =>
    exact ⟨crowds.perform, set_copied_eq_self_iff crowds.slot, shape_set_copied_iff crowds.slot⟩

theorem after_replicate_push {n : Nat} (h : n ≤ limit) (v : Value) :
    after (.replicate n (.push v)) = ⟨.replicate n v⟩ := by
  induction n with
  | zero => rfl
  | succ n ih =>
    have room : depth ⟨.replicate n v⟩ < limit := by simpa [depth] using Nat.lt_of_succ_le h
    rw [List.replicate_succ', after_concat, ih (Nat.le_of_succ_le h), perform, push_of_lt room]
    rfl

def brimful : List Operation :=
  .replicate limit (.push (.pushed 1 2))

theorem crowds_brimful : (after brimful).Crowds (.dup 1) 0 (.pushed 1 2) := by
  rw [brimful, after_replicate_push (Nat.le_refl _)]
  exact ⟨rfl, List.getElem?_replicate_of_lt (by decide), List.length_replicate⟩

theorem failure_flags_at_most_brimful :
    (after brimful).perform (.dup 1) =
      (false, (after brimful).set 0 (Value.copied (.pushed 1 2))) ∧
    ((after brimful).perform (.push .unknown)).2 = after brimful := by
  obtain ⟨-, -, flags⟩ := failure_flags_at_most brimful (.dup 1)
  obtain ⟨-, unchanged, -⟩ := failure_flags_at_most brimful (.push .unknown)
  have failed : ((after brimful).perform (.push .unknown)).1 = false := by
    rw [perform, push_of_ge (Nat.le_of_eq crowds_brimful.full.symm)]
    rfl
  exact ⟨(flags _ _ crowds_brimful).1, unchanged (fun _ _ crowds => nomatch crowds.copies) failed⟩

theorem failed_copy_flags :
    ¬∀ os o, ((after os).perform o).1 = false → ((after os).perform o).2 = after os := by
  intro unchanged
  have crowds := crowds_brimful
  have same := unchanged brimful (.dup 1) (by rw [crowds.perform])
  rw [crowds.perform, set_copied_eq_self_iff crowds.slot] at same
  contradiction

end Stack
end Splice
