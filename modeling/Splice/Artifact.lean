import Splice.Json.Bytes
import Splice.Json.Reader
import Splice.Json.Writer

namespace Splice

-- A compiled contract: its init code, and its runtime code as deployed, metadata included.
structure Artifact where
  contractName : String
  bytecode : List UInt8
  deployedBytecode : List UInt8
  deriving DecidableEq

namespace Artifact

def ofJson? (value : Json) : Option Artifact := do
  match ← value.fields? ["contractName", "bytecode", "deployedBytecode"] with
  | [some name, some init, some deployed] =>
    return ⟨← name.text?, ← init.bytes?, ← deployed.bytes?⟩
  | _ => none

def toJson (a : Artifact) : Json :=
  .ofMembers [
    ("contractName", .ofText a.contractName), ("bytecode", .ofBytes a.bytecode),
    ("deployedBytecode", .ofBytes a.deployedBytecode)
  ]

def parse (text : List Char) : Except Error Artifact :=
  match (Json.parse? text).bind ofJson? with
  | some artifact => .ok artifact
  | none => .error .json

end Artifact

end Splice
