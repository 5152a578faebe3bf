import Splice.Command

namespace Splice.Main

def fault : IO.Error → FileFault
  | .noFileOrDirectory .. => .noEntry
  | .alreadyExists .. => .alreadyExists
  | e => .other (toString e)

def attempt (action : IO α) : IO (Except FileFault α) := do
  match ← action.toBaseIO with
  | .ok a => return .ok a
  | .error e => return .error (fault e)

instance : FileAccess IO where
  read path := do return (← attempt (IO.FS.readBinFile path)).map (·.toList)
  write path bytes := attempt (IO.FS.writeBinFile path ⟨bytes.toArray⟩)
  createDirectories path :=
    if path.isEmpty then return .ok () else attempt (IO.FS.createDirAll path)
  isFile path := do
    match ← attempt (IO.FS.readBinFile path) with
    | .ok _ => return true
    | .error _ => return false

end Splice.Main

def main (arguments : List String) : IO UInt32 := do
  match ← (Splice.Command.run arguments : IO (Except Splice.Command.Failure String)) with
  | .ok text =>
    IO.print text
    return 0
  | .error failure =>
    IO.eprintln failure.message
    return if failure = .usage then 2 else 1
