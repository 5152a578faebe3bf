import Splice.Error
import Splice.Text.Blank

namespace Splice.Opcode

def mnemonics : List Opcode :=
  named ++ (List.range 32).map (push <| · + 1) ++ (List.range 16).map (dup <| · + 1)
    ++ (List.range 16).map (swap <| · + 1)

def ofCount (family : String) (member : Nat → Opcode) (limit : Nat) (token count : List Char) :
    Except MnemonicFault Opcode :=
  match Numeral.read 10 256 count with
  | .ok n => if 1 ≤ n ∧ n ≤ limit then .ok (member n) else .error (.badCount family (.ofList token))
  | .error _ => .error (.badCount family (.ofList token))

-- Names are read in any case. Two operations have a second name, which has to be in capitals, and
-- so has the name of a family whose number is not written as it is printed.
def ofMnemonic (token : List Char) : Except MnemonicFault Opcode :=
  match mnemonics.find? (·.name.toList = token.map Char.toUpper) with
  | some op => .ok op
  | none =>
    if token = ['S', 'H', 'A', '3'] then .ok keccak256
    else if token = "PREVRANDAO".toList then .ok difficulty
    else if let some count := Text.after? ['P', 'U', 'S', 'H'] token then
      ofCount "PUSH" push 32 token count
    else if let some count := Text.after? ['D', 'U', 'P'] token then
      ofCount "DUP" dup 16 token count
    else if let some count := Text.after? ['S', 'W', 'A', 'P'] token then
      ofCount "SWAP" swap 16 token count
    else
      .error (.unknown (.ofList token))

end Splice.Opcode
