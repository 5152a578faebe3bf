import Splice.Abstract.Fold
import Splice.Proofs.Guarded

namespace Splice

namespace Fold

theorem size_range {w : Word} (h : w ≠ 0) : 1 ≤ size w ∧ size w ≤ 32 := by
  have hlog : Nat.log2 w.toNat < 256 := by
    refine (Nat.log2_lt fun hz => h ?_).mpr w.isLt
    exact BitVec.eq_of_toNat_eq (by simpa using hz)
  simp only [size, if_neg h]
  omega

theorem exponential_ne_error (base exponent : Option Word) (e : Error) :
    exponential base exponent ≠ .error e := by
  simp only [exponential]
  split
  · simp
  · split
    · simp
    · split
      case isTrue => simp
      case isFalse hzero hsize => exact absurd (size_range hzero) hsize

theorem word?_ne_error (op : Opcode) (arg : Nat → Option Word) (e : Error) :
    word? op arg ≠ .error e := by
  cases op with
  | exp => exact exponential_ne_error (arg 0) (arg 1) e
  | _ => simp [word?]

end Fold

namespace Guarded

def quotient (a b : Word) : Guarded Word :=
  if b = 0 then fault else pure (a / b)

def remainder (a b : Word) : Guarded Word :=
  if b = 0 then fault else pure (a % b)

def signedDivide (a b : Word) : Guarded Word :=
  if b = 0 then
    pure 0
  else do
    let q ← quotient a.magnitude b.magnitude
    return if a.msb = b.msb then q else -q

def signedRemainder (a b : Word) : Guarded Word :=
  if b = 0 then
    pure 0
  else do
    let r ← remainder a.magnitude b.magnitude
    return if a.msb then -r else r

def extendSign (k value : Word) : Guarded Word :=
  if k < 31 then do
    let bit ← add (← mul k.toNat 8) 7
    let width ← add bit 1
    return if value.getLsbD bit then value ||| ~~~Word.mask width else value &&& Word.mask width
  else
    pure value

def byteAt (position word : Word) : Guarded Word :=
  if position < 32 then do
    let shift ← mul 8 (← sub 31 position.toNat)
    return (word >>> shift) &&& 0xff
  else
    pure 0

def binary (f : Word → Word → Guarded Word) (a b : Option Word) : Guarded (Option Word) :=
  match a, b with
  | some a, some b => do
    let word ← f a b
    return some word
  | _, _ => pure none

-- Words wrap, so no other operation on them has a range.
def word? (op : Opcode) (arg : Nat → Option Word) : Guarded (Option Word) :=
  match op with
  | .sdiv => if arg 1 = some 0 then pure (some 0) else binary signedDivide (arg 0) (arg 1)
  | .smod => if arg 1 = some 0 then pure (some 0) else binary signedRemainder (arg 0) (arg 1)
  | .signextend => binary extendSign (arg 0) (arg 1)
  | .byte => if (arg 0).any (32 ≤ ·) then pure (some 0) else binary byteAt (arg 0) (arg 1)
  | op => ofExcept (Fold.word? op arg)

def evaluate (op : Opcode) (inputs : List Value) : Guarded Value := do
  let word ← word? op fun i => inputs[i]?.bind Value.word?
  return Value.ofOption word

def ofBytes (bytes : List UInt8) : Guarded Word :=
  if 32 < bytes.length then fault else pure (.ofBytes bytes)

def ofImmediate (pc : Nat) (bytes : List UInt8) : Guarded Value :=
  if 32 < bytes.length then
    throw (.wideValue bytes.length pc)
  else do
    let word ← ofBytes bytes
    return .pushed pc word

theorem magnitude_ne_zero {a : Word} (h : a ≠ 0) : a.magnitude ≠ 0 := by
  simp only [Word.magnitude]
  split
  · simpa using h
  · exact h

theorem signedDivide_eq (a b : Word) : signedDivide a b = pure (Word.signedDivide a b) := by
  simp only [signedDivide, Word.signedDivide]
  split
  case isTrue => rfl
  case isFalse hb => rw [quotient, if_neg (magnitude_ne_zero hb), pure_bind]

theorem signedRemainder_eq (a b : Word) :
    signedRemainder a b = pure (Word.signedRemainder a b) := by
  simp only [signedRemainder, Word.signedRemainder]
  split
  case isTrue => rfl
  case isFalse hb => rw [remainder, if_neg (magnitude_ne_zero hb), pure_bind]

theorem extendSign_eq (k value : Word) : extendSign k value = pure (Word.extendSign k value) := by
  simp only [extendSign, Word.extendSign]
  split
  case isTrue hk =>
    have hk : k.toNat < 31 := hk
    have husize : 256 < usize := by decide
    rw [mul_eq (by omega), pure_bind, add_eq (by omega), pure_bind, add_eq (by omega), pure_bind]
  case isFalse => rfl

theorem byteAt_eq (position word : Word) :
    byteAt position word = pure (Word.byteAt position word) := by
  simp only [byteAt, Word.byteAt]
  split
  case isTrue hp =>
    have hp : position.toNat < 32 := hp
    have husize : 256 < usize := by decide
    rw [sub_eq (by omega), pure_bind, mul_eq (by omega), pure_bind]
  case isFalse => rfl

theorem binary_eq {f : Word → Word → Guarded Word} {f' : Word → Word → Word}
    (h : ∀ a b, f a b = pure (f' a b)) (a b : Option Word) :
    binary f a b = pure (Fold.binary f' a b) := by
  cases a <;> cases b <;> simp [binary, Fold.binary, h]

theorem shortcut_eq {settled : Prop} [Decidable settled] {result : Word} {g : Guarded (Option Word)}
    {otherwise : Option Word} (h : g = pure otherwise) :
    (if settled then pure (some result) else g) =
      pure (Fold.shortcut settled result otherwise) := by
  by_cases hs : settled <;> simp [Fold.shortcut, hs, h]

theorem word?_safe (op : Opcode) (arg : Nat → Option Word) :
    Safe (word? op arg) (Fold.word? op arg) fun _ => True := by
  have hplain : Safe (ofExcept (Fold.word? op arg)) (Fold.word? op arg) fun _ => True :=
    .ofExcept (fun e he => absurd he (Fold.word?_ne_error op arg e)) fun _ _ => trivial
  cases op with
  | sdiv => exact .of_pure (shortcut_eq (binary_eq signedDivide_eq ..)) trivial
  | smod => exact .of_pure (shortcut_eq (binary_eq signedRemainder_eq ..)) trivial
  | signextend => exact .of_pure (binary_eq extendSign_eq ..) trivial
  | byte =>
    refine .of_pure ?_ trivial
    have h := binary_eq byteAt_eq (arg 0) (arg 1)
    have hshort : decide ((arg 0).any (32 ≤ ·) = true) = (arg 0).any (32 ≤ ·) := Bool.decide_coe _
    simp only [word?, shortcut_eq h, hshort]
  | _ => exact hplain

theorem evaluate_safe (op : Opcode) (inputs : List Value) :
    Safe (evaluate op inputs) (Fold.evaluate op inputs) fun _ => True :=
  (word?_safe op _).map fun _ _ _ => trivial

theorem ofBytes_eq {bytes : List UInt8} (h : bytes.length ≤ 32) :
    ofBytes bytes = pure (.ofBytes bytes) :=
  if_neg (by omega)

theorem ofImmediate_safe (pc : Nat) {bytes : List UInt8} (h : bytes.length ≤ 32) :
    Safe (ofImmediate pc bytes) (Value.ofImmediate pc bytes) fun _ => True := by
  have hshort : ¬32 < bytes.length := by omega
  rw [ofImmediate, Value.ofImmediate, if_neg hshort, if_neg hshort]
  exact .after (ofBytes_eq h) (.ok trivial)

end Guarded
end Splice
