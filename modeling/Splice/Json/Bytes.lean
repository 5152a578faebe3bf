import Splice.Hex
import Splice.Json.Escape

namespace Splice

def Json.bytes? (value : Json) : Option (List UInt8) :=
  value.chars?.bind fun text => (Hex.decodeLoose text).toOption

def Json.ofBytes (bytes : List UInt8) : Json :=
  .ofText (Hex.encode bytes)

end Splice
