import Splice.Opcode.Mnemonic
import Splice.Program.Encoding

namespace Splice.Assembly

open Text

def byteDigits? (token : List Char) : Option (List Char) :=
  match after? "UNKNOWN(0x".toList token with
  | some rest => if rest.getLast? = some ')' then some rest.dropLast else none
  | none => none

def readOpcode (token : List Char) : Except AssemblyFault Opcode :=
  match byteDigits? token with
  | some digits =>
    match Numeral.read 16 256 digits with
    | .ok n => .ok (.ofByte (.ofNat n))
    | .error fault => .error (.undefinedByte (.ofList token) fault)
  | none => (Opcode.ofMnemonic token).mapError .mnemonic

-- An immediate is written with as few digits as one likes and extended by zeros on the left.
def readImmediate (token : List Char) (width : Nat) : Except AssemblyFault (List UInt8) :=
  match after? ['0', 'x'] token with
  | none => .error (.bareImmediate (.ofList token))
  | some digits =>
    let padded := if (String.ofList digits).utf8ByteSize % 2 = 1 then '0' :: digits else digits
    match Hex.decode padded with
    | .error fault => .error (.badImmediate (.ofList token) fault)
    | .ok bytes =>
      if width < bytes.length then .error (.wideImmediate (.ofList token) bytes.length width)
      else .ok (List.replicate (width - bytes.length) 0 ++ bytes)

def readTokens (pc : Nat) : List (List Char) → Except AssemblyFault (List Instruction)
  | [] => .ok []
  | token :: rest => do
    let op ← readOpcode token
    if op.width = 0 then
      return { pc, op, imm := none } :: (← readTokens (pc + 1) rest)
    else
      match rest with
      | [] => .error (.missingImmediate op)
      | literal :: rest =>
        let imm ← readImmediate literal op.width
        return { pc, op, imm := some imm } :: (← readTokens (pc + 1 + op.width) rest)

def tokens (line : List Char) : List (List Char) :=
  words (line.takeWhile (· ≠ '#'))

def readLines (number pc : Nat) : List (List Char) → Except Error (List Instruction)
  | [] => .ok []
  | line :: rest =>
    match readTokens pc (tokens line) with
    | .error fault => .error (.assembly number fault (.ofList (trim line)))
    | .ok instructions => do
      let pc := pc + (instructions.map (·.size)).sum
      return instructions ++ (← readLines (number + 1) pc rest)

def parse (text : List Char) : Except Error (List Instruction) :=
  readLines 1 0 (lines text)

def assemble (text : List Char) : Except Error (List UInt8) :=
  parse text >>= Program.encode

end Splice.Assembly
