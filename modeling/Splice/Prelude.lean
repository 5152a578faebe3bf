import Splice.Hex

namespace Splice

-- Bytes that run ahead of a runtime code. Nothing is asked of what they do.
structure Prelude where
  bytes : List UInt8
  deriving DecidableEq

namespace Prelude

def empty : Prelude where
  bytes := []

def ofText (text : List Char) : Except Error Prelude :=
  (Hex.decodeMarked text).map Prelude.mk

def size (p : Prelude) : Nat :=
  p.bytes.length

def isEmpty (p : Prelude) : Bool :=
  p.bytes.isEmpty

def toHex (p : Prelude) : String :=
  Hex.encode p.bytes

end Prelude
end Splice
