import Splice.BigEndian

namespace Splice

-- The machine computes on 256-bit words. Arithmetic wraps; signed operations read a word in two's
-- complement.
abbrev Word := BitVec 256

namespace Word

def ofBytes (bytes : List UInt8) : Word :=
  .ofNat 256 (BigEndian.value bytes)

def offset? (a : Word) : Option Nat :=
  if a.toNat < BigEndian.bound 8 then some a.toNat else none

def flag (condition : Bool) : Word :=
  if condition then 1 else 0

-- Division by zero is zero for every kind of quotient, remainder and modulus.
def divide (a b : Word) : Word :=
  a / b

def remainder (a b : Word) : Word :=
  if b = 0 then 0 else a % b

def magnitude (a : Word) : Word :=
  if a.msb then -a else a

def signedDivide (a b : Word) : Word :=
  if b = 0 then
    0
  else
    let quotient := magnitude a / magnitude b
    if a.msb = b.msb then quotient else -quotient

def signedRemainder (a b : Word) : Word :=
  if b = 0 then
    0
  else
    let rest := magnitude a % magnitude b
    if a.msb then -rest else rest

def signedLess (a b : Word) : Bool :=
  match a.msb, b.msb with
  | true, false => true
  | false, true => false
  | _, _ => a < b

def addMod (a b n : Word) : Word :=
  if n = 0 then 0 else .ofNat 256 ((a.toNat + b.toNat) % n.toNat)

def mulMod (a b n : Word) : Word :=
  if n = 0 then 0 else .ofNat 256 ((a.toNat * b.toNat) % n.toNat)

def power (base : Word) (exponent : Nat) : Word :=
  if exponent = 0 then
    1
  else
    let half := power (base * base) (exponent / 2)
    if exponent % 2 = 0 then half else base * half
termination_by exponent
decreasing_by omega

def mask (bits : Nat) : Word :=
  1#256 <<< bits - 1#256

-- Copies the sign bit of byte `k`, counted from the least significant end, into all higher bits.
def extendSign (k value : Word) : Word :=
  if k < 31 then
    let bit := k.toNat * 8 + 7
    if value.getLsbD bit then value ||| ~~~mask (bit + 1) else value &&& mask (bit + 1)
  else
    value

-- The byte at `position`, counted from the most significant end.
def byteAt (position word : Word) : Word :=
  if position < 32 then (word >>> (8 * (31 - position.toNat))) &&& 0xff else 0

def shiftLeft (shift value : Word) : Word :=
  if shift < 256 then value <<< shift.toNat else 0

def shiftRight (shift value : Word) : Word :=
  if shift < 256 then value >>> shift.toNat else 0

def shiftRightSigned (shift value : Word) : Word :=
  if shift < 256 then
    if value.msb then ~~~(~~~value >>> shift.toNat) else value >>> shift.toNat
  else
    if value.msb then .allOnes 256 else 0

theorem offset?_eq_some_iff {a : Word} {n : Nat} :
    a.offset? = some n ↔ a.toNat < BigEndian.bound 8 ∧ a.toNat = n := by
  rw [offset?, Option.ite_none_right_eq_some, Option.some.injEq]

theorem toNat_ofBytes (bytes : List UInt8) :
    (ofBytes bytes).toNat = BigEndian.value bytes % BigEndian.bound 32 := by
  simp [ofBytes, BigEndian.bound]

end Word
end Splice
