import Splice.Numeral
import Splice.Text.Printable

namespace Splice.Text

def escape (quote c : Char) : List Char :=
  if c = quote ∨ c = '\\' then ['\\', c]
  else if c = Char.ofNat 0 then ['\\', '0']
  else if c = '\t' then ['\\', 't']
  else if c = '\r' then ['\\', 'r']
  else if c = '\n' then ['\\', 'n']
  else if isPrintable c then [c]
  else ['\\', 'u', '\x7b'] ++ Nat.toDigits 16 c.toNat ++ ['\x7d']

def quotedWith (quote : Char) (cs : List Char) : String :=
  .ofList (quote :: cs.flatMap (escape quote) ++ [quote])

def quotedChar (c : Char) : String :=
  quotedWith '\x27' [c]

def quotedString (s : String) : String :=
  quotedWith '"' s.toList

end Splice.Text
