import Splice.Json.Bytes
import Splice.Json.Reader
import Splice.Json.Writer

namespace Splice

structure Record where
  contractName : String
  prelude : String
  preludeSize : Nat
  bytecode : List UInt8
  deployedBytecode : List UInt8
  deriving DecidableEq

namespace Record

def ofJson? (value : Json) : Option Record := do
  let names := ["contractName", "prelude", "preludeSize", "bytecode", "deployedBytecode"]
  match ← value.fields? names with
  | [some name, some prelude, some size, some init, some deployed] =>
    return ⟨← name.text?, ← prelude.text?, ← size.size?, ← init.bytes?, ← deployed.bytes?⟩
  | _ => none

def toJson (r : Record) : Json :=
  .ofMembers [
    ("contractName", .ofText r.contractName), ("prelude", .ofText r.prelude),
    ("preludeSize", .ofNat r.preludeSize), ("bytecode", .ofBytes r.bytecode),
    ("deployedBytecode", .ofBytes r.deployedBytecode)
  ]

end Record
end Splice
