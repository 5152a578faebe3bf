import Mathlib.Algebra.Group.Nat.Defs
import Splice.Error

namespace Splice

-- A computation on integers of 64 bits and on buffers. It ends with nothing where an operation is
-- out of range: an index or a slice that reaches behind a buffer, a sum or a product that is too
-- large, a difference below zero, a division by zero.
abbrev Guarded (α : Type) := ExceptT Error Option α

namespace Guarded

variable {α β : Type}

def fault : Guarded α :=
  ExceptT.mk none

def ofExcept (x : Except Error α) : Guarded α :=
  ExceptT.mk (some x)

def usize : Nat := 2 ^ 64

def add (a b : Nat) : Guarded Nat :=
  if a + b < usize then pure (a + b) else fault

def mul (a b : Nat) : Guarded Nat :=
  if a * b < usize then pure (a * b) else fault

def sub (a b : Nat) : Guarded Nat :=
  if b ≤ a then pure (a - b) else fault

def shiftRight (a distance : Nat) : Guarded Nat :=
  if distance < 64 then pure (a >>> distance) else fault

def difference (a b : Nat) : Guarded Int :=
  if a < 2 ^ 63 ∧ b < 2 ^ 63 then pure (a - b) else fault

def index (l : List α) (i : Nat) : Guarded α :=
  match l[i]? with
  | some a => pure a
  | none => fault

def slice (l : List α) (start stop : Nat) : Guarded (List α) :=
  if start ≤ stop ∧ stop ≤ l.length then pure ((l.take stop).drop start) else fault

def write (l : List α) (start stop : Nat) (part : List α) : Guarded (List α) :=
  if start ≤ stop ∧ stop ≤ l.length ∧ part.length = stop - start then
    pure (l.take start ++ part ++ l.drop stop)
  else fault

def concat (a b : List α) : Guarded (List α) := do
  let _ ← add a.length b.length
  return a ++ b

section

variable {a b start stop : Nat} {l part : List α}

theorem add_eq (h : a + b < usize) : add a b = pure (a + b) :=
  if_pos h

theorem mul_eq (h : a * b < usize) : mul a b = pure (a * b) :=
  if_pos h

theorem sub_eq (h : b ≤ a) : sub a b = pure (a - b) :=
  if_pos h

theorem shiftRight_eq (h : b < 64) : shiftRight a b = pure (a >>> b) :=
  if_pos h

theorem difference_eq (ha : a < 2 ^ 63) (hb : b < 2 ^ 63) : difference a b = pure (a - b : Int) :=
  if_pos ⟨ha, hb⟩

theorem index_eq {i : Nat} {v : α} (h : l[i]? = some v) : index l i = pure v := by
  rw [index, h]

theorem slice_eq (h : start ≤ stop) (hl : stop ≤ l.length) :
    slice l start stop = pure ((l.take stop).drop start) :=
  if_pos ⟨h, hl⟩

theorem write_eq (hl : stop ≤ l.length) (h : start + part.length = stop) :
    write l start stop part = pure (l.take start ++ part ++ l.drop stop) := by
  rw [write, if_pos ⟨by omega, hl, by omega⟩]

theorem concat_eq {as bs : List α} (h : as.length + bs.length < usize) :
    concat as bs = pure (as ++ bs) := by
  rw [concat, add_eq h, pure_bind]

end

def inputKinds : List ErrorKind :=
  [.malformedInput, .unsupportedProgram, .stackUnderflow, .stackOverflow, .resourceExhaustion]

-- A guarded computation stays in range and does what the plain one does. If that fails, the input
-- is to blame, and what it answers satisfies `post`.
structure Safe (g : Guarded α) (x : Except Error α) (post : α → Prop) : Prop where
  agrees   : g = ofExcept x
  foreseen : ∀ e, x = .error e → e.kind ∈ inputKinds
  holds    : ∀ a, x = .ok a → post a

namespace Safe

variable {g : Guarded α} {x : Except Error α} {post : α → Prop}

theorem ok {a : α} (h : post a) : Safe (pure a) (.ok a) post where
  agrees     := rfl
  foreseen _ := by simp
  holds b hb := Except.ok.inj hb ▸ h

theorem of_pure {a : α} (hg : g = pure a) (h : post a) : Safe g (.ok a) post :=
  hg ▸ ok h

theorem error {e : Error} (h : inputKinds.contains e.kind) :
    Safe (throw e) (.error e) post where
  agrees        := rfl
  foreseen _ he := Except.error.inj he ▸ List.contains_iff_mem.mp h
  holds         := by simp

theorem ofExcept (h : ∀ e, x = .error e → e.kind ∈ inputKinds)
    (hp : ∀ a, x = .ok a → post a) : Safe (ofExcept x) x post where
  agrees   := rfl
  foreseen := h
  holds    := hp

theorem bind (h : Safe g x post) {f : α → Guarded β} {f' : α → Except Error β} {post' : β → Prop}
    (hf : ∀ a, x = .ok a → post a → Safe (f a) (f' a) post') :
    Safe (g >>= f) (x >>= f') post' := by
  obtain ⟨rfl, hforeseen, hpost⟩ := h
  cases x with
  | error e => exact error (List.contains_iff_mem.mpr (hforeseen e rfl))
  | ok a => exact hf a rfl (hpost a rfl)

theorem map (h : Safe g x post) {f : α → β} {post' : β → Prop}
    (hp : ∀ a, x = .ok a → post a → post' (f a)) :
    Safe (g >>= fun a => pure (f a)) (x.map f) post' := by
  obtain ⟨rfl, hforeseen, hpost⟩ := h
  cases x with
  | error e => exact error (List.contains_iff_mem.mpr (hforeseen e rfl))
  | ok a => exact ok (hp a rfl (hpost a rfl))

-- Steps of the guarded computation that only look at ranges do not show in the plain one.
theorem after {a : α} (h : g = pure a) {f : α → Guarded β} {y : Except Error β} {post' : β → Prop}
    (hf : Safe (f a) y post') : Safe (g >>= f) y post' := by
  rwa [h, pure_bind]

end Safe

end Guarded
end Splice
