import Splice.Error
import Splice.Text.Blank

namespace Splice.Hex

open Numeral Text

def digits (bytes : List UInt8) : List Char :=
  bytes.flatMap hexDigits

def encode (bytes : List UInt8) : String :=
  "0x" ++ .ofList (digits bytes)

def decodePairs (index : Nat) : List Char → Except HexFault (List UInt8)
  | high :: low :: rest =>
    match digitValue? high, digitValue? low with
    | none, _ => .error (.invalidChar high index)
    | _, none => .error (.invalidChar low (index + 1))
    | some h, some l => do
      let bytes ← decodePairs (index + 2) rest
      return .ofNat (h * 16 + l) :: bytes
  | _ => .ok []

-- The reader takes the text byte by byte, so a character outside ASCII counts as several, and what
-- a fault shows of it is its first byte.
def decode (text : List Char) : Except HexFault (List UInt8) :=
  let bytes := text.flatMap fun c => (String.utf8EncodeChar c).map fun b => Char.ofNat b.toNat
  if bytes.length % 2 = 1 then .error .oddLength else decodePairs 0 bytes

def normalize (text : List Char) : Except HexFault (List Char) :=
  let trimmed := trim text
  let body := ((after? ['0', 'x'] trimmed).or (after? ['0', 'X'] trimmed)).getD trimmed
  let cleaned := body.filter fun c => !isBlank c && c != '_'
  match cleaned.dropWhile fun c => (digitValue? c).isSome with
  | [] => .ok cleaned
  | c :: rest => .error (.invalidChar c (cleaned.length - rest.length - 1))

def decodeLoose (text : List Char) : Except HexFault (List UInt8) :=
  normalize text >>= decode

def decodeMarked (text : List Char) : Except Error (List UInt8) :=
  let trimmed := trim text
  if (after? ['0', 'x'] trimmed).isSome then
    (decodeLoose trimmed).mapError .hex
  else
    .error (.missingHexMark (.ofList trimmed))

end Splice.Hex
