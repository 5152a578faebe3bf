import Splice.Artifact
import Splice.FileAccess
import Splice.Path
import Splice.Record

namespace Splice

-- Artifacts are read from one directory and records are written to another, each under the name of
-- its contract.
structure Store where
  artifactDir : String
  outputDir : String

namespace Store

def artifactPath (s : Store) (name : String) : String :=
  Path.join s.artifactDir (name ++ ".json")

def recordPath (s : Store) (name : String) : String :=
  Path.join s.outputDir (name ++ ".json")

variable [Monad m] [FileAccess m]

def load (s : Store) (name : String) : m (Except Error Artifact) := do
  let path := s.artifactPath name
  match ← FileAccess.readText path with
  | .error fault => return .error (.unreadable path fault)
  | .ok text => return Artifact.parse text

def persist (s : Store) (record : Record) : m (Except Error String) := do
  match ← FileAccess.createDirectories s.outputDir with
  | .error fault => return .error (.unwritable s.outputDir fault)
  | .ok () =>
    let path := s.recordPath record.contractName
    match ← FileAccess.writeText path record.toJson.pretty with
    | .error fault => return .error (.unwritable path fault)
    | .ok () => return .ok path

end Store
end Splice
