import Splice.Abstract.Value

namespace Splice.Fold

def binary (f : Word → Word → Word) (a b : Option Word) : Option Word :=
  a.bind fun a => b.map (f a)

def shortcut (settled : Bool) (result : Word) (otherwise : Option Word) : Option Word :=
  if settled then some result else otherwise

def size (w : Word) : Nat :=
  if w = 0 then 0 else (Nat.log2 w.toNat + 8) / 8

def exponential (base exponent : Option Word) : Except Error (Option Word) :=
  match exponent with
  | none => .ok none
  | some e =>
    if e = 0 then .ok (some 1)
    else if 1 ≤ size e ∧ size e ≤ 32 then
      .ok (base.map fun b => if b = 0 then 0 else b.power e.toNat)
    else .error (.wideExponent (size e))

-- The result of an operation on the words that are known of its operands, the top of the stack
-- first. Operations that read more than their operands have no known result.
def word? (op : Opcode) (arg : Nat → Option Word) : Except Error (Option Word) :=
  let a := arg 0
  let b := arg 1
  let n := arg 2
  match op with
  | .add => .ok <| binary (· + ·) a b
  | .mul => .ok <| binary (· * ·) a b
  | .sub => .ok <| binary (· - ·) a b
  | .div => .ok <| shortcut (b = some 0) 0 <| binary Word.divide a b
  | .sdiv => .ok <| shortcut (b = some 0) 0 <| binary Word.signedDivide a b
  | .mod => .ok <| shortcut (b = some 0) 0 <| binary Word.remainder a b
  | .smod => .ok <| shortcut (b = some 0) 0 <| binary Word.signedRemainder a b
  | .addmod =>
    .ok <| shortcut (n = some 0) 0 <| n.bind fun n => binary (fun a b => Word.addMod a b n) a b
  | .mulmod =>
    .ok <| shortcut (n = some 0) 0 <| n.bind fun n => binary (fun a b => Word.mulMod a b n) a b
  | .exp => exponential a b
  | .signextend => .ok <| binary Word.extendSign a b
  | .lt => .ok <| binary (fun a b => Word.flag (a < b)) a b
  | .gt => .ok <| binary (fun a b => Word.flag (b < a)) a b
  | .slt => .ok <| binary (fun a b => Word.flag (Word.signedLess a b)) a b
  | .sgt => .ok <| binary (fun a b => Word.flag (Word.signedLess b a)) a b
  | .eq => .ok <| binary (fun a b => Word.flag (a = b)) a b
  | .iszero => .ok <| a.map fun a => Word.flag (a = 0)
  | .and => .ok <| binary (· &&& ·) a b
  | .or => .ok <| binary (· ||| ·) a b
  | .xor => .ok <| binary (· ^^^ ·) a b
  | .not => .ok <| a.map (~~~ ·)
  | .byte => .ok <| shortcut (a.any (32 ≤ ·)) 0 <| binary Word.byteAt a b
  | .shl => .ok <| shortcut (a.any (256 ≤ ·)) 0 <| binary Word.shiftLeft a b
  | .shr => .ok <| shortcut (a.any (256 ≤ ·)) 0 <| binary Word.shiftRight a b
  | .sar => .ok <| binary Word.shiftRightSigned a b
  | _ => .ok none

-- The single output of an operation. A result has no origin, even where it equals an operand.
def evaluate (op : Opcode) (inputs : List Value) : Except Error Value :=
  (word? op fun i => inputs[i]?.bind Value.word?).map Value.ofOption

end Splice.Fold
