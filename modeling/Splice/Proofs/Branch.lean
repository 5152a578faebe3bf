import Mathlib.Logic.Relation
import Splice.Exploration
import Splice.Proofs.Step

namespace Splice

def Stack.Undecided (s : Stack) : Prop :=
  ∃ v, s.peek? 1 = some v ∧ v.isConstant = false

instance (s : Stack) : Decidable s.Undecided :=
  decidable_of_iff ((s.peek? 1).any fun v => !v.isConstant)
    (by simp [Stack.Undecided, Option.any_eq_true])

namespace Instruction

def Forks (ins : Instruction) (s : Stack) : Prop :=
  ins.op = .jumpi ∧ s.Undecided

instance (ins : Instruction) (s : Stack) : Decidable (ins.Forks s) :=
  inferInstanceAs (Decidable (_ ∧ _))

theorem not_forks_set {ins : Instruction} {s : Stack} (h : ins.Forks s) (w : Word) :
    ¬ins.Forks (s.set 1 (.constant w)) := by
  rintro ⟨-, v, hv, hc⟩
  have ⟨_, u, hu, _⟩ := h
  have hlt : 1 < s.slots.length := by
    by_contra hge
    simp [Stack.peek?, List.getElem?_eq_none (Nat.not_lt.mp hge)] at hu
  simp only [Stack.peek?, Stack.set, List.getElem?_set_self hlt, Option.some.injEq] at hv
  simp [← hv, Value.isConstant] at hc

end Instruction

structure Branch where
  room : Nat
  stack : Stack
  position : Position

namespace Branch

def taken (b : Branch) : Branch :=
  ⟨b.room - 1, b.stack.set 1 (.constant 1), b.position⟩

-- A branch executes an instruction, or it settles the condition of a fork either way. The side that
-- takes the jump is the nested one.
inductive Move (p : Program) : Branch → Option Observation → Branch → Prop
  | step {room s i ins s' position seen} (get : p.get? i = some ins) (settled : ¬ins.Forks s)
      (step : Step.step p ins i s = .ok (s', position, seen)) :
    Move p ⟨room, s, .running i⟩ seen ⟨room, s', position⟩
  | take {room s i ins} (get : p.get? i = some ins) (forks : ins.Forks s) :
    Move p ⟨room + 1, s, .running i⟩ none ⟨room, s.set 1 (.constant 1), .running i⟩
  | pass {room s i ins} (get : p.get? i = some ins) (forks : ins.Forks s) :
    Move p ⟨room, s, .running i⟩ none ⟨room, s.set 1 (.constant 0), .running i⟩

def Reaches (p : Program) : Branch → Branch → Prop :=
  Relation.ReflTransGen fun b b' => ∃ seen, Move p b seen b'

-- What comes into sight somewhere behind a branch.
inductive Sees (p : Program) : Branch → Observation → Prop
  | now {b o b'} (move : Move p b (some o) b') : Sees p b o
  | later {b seen b' o} (move : Move p b seen b') (sees : Sees p b' o) : Sees p b o

-- A branch with no room left has come to a fork.
def Capped (p : Program) (b : Branch) : Prop :=
  b.room = 0 ∧ ∃ i ins, b.position = .running i ∧ p.get? i = some ins ∧ ins.Forks b.stack

variable {p : Program} {b b' : Branch} {o : Observation}

theorem Sees.of_reaches (h : Reaches p b b') (hs : Sees p b' o) : Sees p b o := by
  induction h using Relation.ReflTransGen.head_induction_on with
  | refl => exact hs
  | head move _ ih => exact .later move.choose_spec ih

theorem Sees.traced (h : Sees p b o) : o.Traced := by
  induction h with
  | now move =>
    cases move with
    | step _ _ step =>
      have ⟨_, does, _⟩ := Step.does_of_step step
      exact does.traced rfl
  | later _ _ ih => exact ih

theorem not_sees_halted {room : Nat} {s : Stack} : ¬Sees p ⟨room, s, .halted⟩ o := by
  rintro (⟨⟨⟩⟩ | ⟨⟨⟩, _⟩)

theorem not_sees_off {room i : Nat} {s : Stack} (h : p.get? i = none) :
    ¬Sees p ⟨room, s, .running i⟩ o := by
  rintro (⟨move⟩ | ⟨move, _⟩) <;> cases move <;> simp_all

section

variable {room i : Nat} {s s' : Stack} {ins : Instruction} {position : Position}
  {seen : Option Observation}

theorem Move.eq_of_not_forks (get : p.get? i = some ins) (settled : ¬ins.Forks s)
    (step : Step.step p ins i s = .ok (s', position, seen)) {seen' : Option Observation}
    (move : Move p ⟨room, s, .running i⟩ seen' b) : seen' = seen ∧ b = ⟨room, s', position⟩ := by
  cases move with
  | step get' _ step' =>
    cases get.symm.trans get'
    cases step.symm.trans step'
    exact ⟨rfl, rfl⟩
  | take get' forks | pass get' forks =>
    cases get.symm.trans get'
    exact absurd forks settled

theorem Move.eq_of_forks (get : p.get? i = some ins) (forks : ins.Forks s)
    (move : Move p ⟨room, s, .running i⟩ seen b) :
    seen = none ∧ (b = ⟨room, s.set 1 (.constant 0), .running i⟩ ∨
      ∃ r, room = r + 1 ∧ b = ⟨r, s.set 1 (.constant 1), .running i⟩) := by
  cases move with
  | step get' settled _ =>
    cases get.symm.trans get'
    exact absurd forks settled
  | take => exact ⟨rfl, .inr ⟨_, rfl, rfl⟩⟩
  | pass => exact ⟨rfl, .inl rfl⟩

theorem sees_step (get : p.get? i = some ins) (settled : ¬ins.Forks s)
    (step : Step.step p ins i s = .ok (s', position, seen))
    (h : Sees p ⟨room, s, .running i⟩ o) : seen = some o ∨ Sees p ⟨room, s', position⟩ o := by
  cases h with
  | now move => exact .inl (move.eq_of_not_forks get settled step).1.symm
  | later move sees =>
    obtain ⟨rfl, rfl⟩ := move.eq_of_not_forks get settled step
    exact .inr sees

theorem sees_fork (get : p.get? i = some ins) (forks : ins.Forks s)
    (h : Sees p ⟨room, s, .running i⟩ o) :
    Sees p ⟨room, s.set 1 (.constant 0), .running i⟩ o ∨
      ∃ r, room = r + 1 ∧ Sees p ⟨r, s.set 1 (.constant 1), .running i⟩ o := by
  cases h with
  | now move => exact nomatch (move.eq_of_forks get forks).1
  | later move sees =>
    obtain ⟨-, rfl | ⟨r, rfl, rfl⟩⟩ := move.eq_of_forks get forks
    case inl => exact .inl sees
    case inr => exact .inr ⟨r, rfl, sees⟩

end

theorem Sees.more (h : Sees p b o) {room : Nat} (hr : b.room ≤ room) :
    Sees p ⟨room, b.stack, b.position⟩ o := by
  induction h generalizing room with
  | now move =>
    cases move with
    | step get settled step => exact .now (.step get settled step)
  | later move _ ih =>
    cases move with
    | step get settled step => exact .later (.step get settled step) (ih hr)
    | pass get forks => exact .later (.pass get forks) (ih hr)
    | take get forks =>
      obtain ⟨room, rfl⟩ := Nat.exists_eq_add_one.mpr (Nat.lt_of_lt_of_le (Nat.succ_pos _) hr)
      exact .later (.take get forks) (ih (Nat.le_of_succ_le_succ hr))

theorem Sees.of_not_capped (h : Sees p b o) {room : Nat}
    (hc : ∀ b', Reaches p ⟨room, b.stack, b.position⟩ b' → ¬Capped p b') :
    Sees p ⟨room, b.stack, b.position⟩ o := by
  induction h generalizing room with
  | now move =>
    cases move with
    | step get settled step => exact .now (.step get settled step)
  | later move _ ih =>
    cases move with
    | step get settled step =>
      have move : Move p ⟨room, _, _⟩ _ _ := .step get settled step
      exact .later move (ih fun b h => hc b (.head ⟨_, move⟩ h))
    | pass get forks =>
      have move : Move p ⟨room, _, _⟩ _ _ := .pass get forks
      exact .later move (ih fun b h => hc b (.head ⟨_, move⟩ h))
    | take get forks =>
      cases room with
      | zero => exact absurd ⟨rfl, _, _, rfl, get, forks⟩ (hc _ .refl)
      | succ room =>
        have move : Move p ⟨room + 1, _, _⟩ _ _ := .take get forks
        exact .later move (ih fun b h => hc b (.head ⟨_, move⟩ h))

end Branch
end Splice
