import Splice.Config
import Splice.Injection
import Splice.Store

namespace Splice.Injection.Stored

variable [Monad m] [FileAccess m]

def store (c : Config) : Store where
  artifactDir := c.artifactDir
  outputDir := c.outputDir

def record (artifact : Artifact) (text : String) (prelude : Prelude) (i : Injection) : Record where
  contractName := artifact.contractName
  prelude := .ofList (Text.trim text.toList)
  preludeSize := prelude.size
  bytecode := i.initCode
  deployedBytecode := i.runtimeCode

-- Splices a prelude, given as hex text, into the contract that is stored under `name`. Answers the
-- path of the record too, if one is to be written. The record goes by the name that the artifact
-- itself bears. Nothing is written unless all that comes before has succeeded.
def splice (c : Config) (name text : String) : m (Except Error (Injection × Option String)) := do
  match Prelude.ofText text.toList with
  | .error e => return .error e
  | .ok prelude =>
    match ← (store c).load name with
    | .error e => return .error e
    | .ok artifact =>
      match inject artifact.bytecode artifact.deployedBytecode prelude c.metadataSuffix with
      | .error e => return .error e
      | .ok injection =>
        if c.persist then
          match ← (store c).persist (record artifact text prelude injection) with
          | .error e => return .error e
          | .ok path => return .ok (injection, some path)
        else
          return .ok (injection, none)

def codes (c : Config) (name text : String) : m (Except Error (String × String)) := do
  match ← splice c name text with
  | .error e => return .error e
  | .ok (injection, _) => return .ok (injection.initHex, injection.runtimeHex)

end Splice.Injection.Stored
