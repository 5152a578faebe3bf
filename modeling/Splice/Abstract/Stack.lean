import Splice.Abstract.Value

namespace Splice

-- The stack of one branch of an exploration. Its first slot is the top.
structure Stack where
  slots : List Value
  deriving DecidableEq

namespace Stack

def limit : Nat := 1024

abbrev Outcome (α : Type) := Except Error α × Stack

def Outcome.settle : Outcome α → Except Error (α × Stack)
  | (.ok a, s) => .ok (a, s)
  | (.error e, _) => .error e

def empty : Stack where
  slots := []

def depth (s : Stack) : Nat :=
  s.slots.length

def isEmpty (s : Stack) : Bool :=
  s.slots.isEmpty

def push (s : Stack) (v : Value) : Outcome Unit :=
  if s.depth < limit then (.ok (), ⟨v :: s.slots⟩) else (.error .stackOverflow, s)

def pop (s : Stack) : Outcome Value :=
  match s.slots with
  | [] => (.error (.stackUnderflow .pop 1 0), s)
  | top :: rest => (.ok top, ⟨rest⟩)

def popMany (s : Stack) (op : Opcode) (n : Nat) : Outcome (List Value) :=
  if s.depth < n then (.error (.stackUnderflow op n s.depth), s)
  else (.ok (s.slots.take n), ⟨s.slots.drop n⟩)

def swap (s : Stack) (i : Nat) : Outcome Unit :=
  match s.slots[0]?, s.slots[i]? with
  | some top, some below => (.ok (), ⟨(s.slots.set 0 below).set i top⟩)
  | _, _ => (.error (.stackUnderflow (.swap (i % 256)) (i + 1) s.depth), s)

-- Copies the slot `i` onto the top, where the top itself is slot 1. The slot is flagged as copied
-- before there is room for the copy.
def dup (s : Stack) (i : Nat) : Outcome Unit :=
  match i, s.slots[i - 1]? with
  | j + 1, some v => push ⟨s.slots.set j v.copied⟩ v.copied
  | _, _ => (.error (.stackUnderflow (.dup (i % 256)) i s.depth), s)

def peek? (s : Stack) (i : Nat) : Option Value :=
  s.slots[i]?

def set (s : Stack) (i : Nat) (v : Value) : Stack where
  slots := s.slots.set i v

def replace (s : Stack) (i : Nat) (v : Value) : Option Value × Stack :=
  (s.peek? i, s.set i v)

def shape (s : Stack) : List Value.Shape :=
  (s.slots.map (·.shape)).reverse

@[simp]
theorem depth_set (s : Stack) (i : Nat) (v : Value) : (s.set i v).depth = s.depth := by
  simp [set, depth]

theorem set_eq_self_of_peek? {s : Stack} {i : Nat} (h : s.peek? i = none) (v : Value) :
    s.set i v = s := by
  simp only [peek?, List.getElem?_eq_none_iff] at h
  simp [set, List.set_eq_of_length_le h]

theorem push_of_lt {s : Stack} (h : s.depth < limit) (v : Value) :
    s.push v = (.ok (), ⟨v :: s.slots⟩) := by
  simp [push, h]

theorem push_of_ge {s : Stack} (h : limit ≤ s.depth) (v : Value) :
    s.push v = (.error .stackOverflow, s) := by
  simp [push, Nat.not_lt.mpr h]

theorem popMany_of_le {s : Stack} {n : Nat} (h : n ≤ s.depth) (op : Opcode) :
    s.popMany op n = (.ok (s.slots.take n), ⟨s.slots.drop n⟩) := by
  simp [popMany, Nat.not_lt.mpr h]

end Stack
end Splice
