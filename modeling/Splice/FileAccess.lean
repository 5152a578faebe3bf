import Splice.Error

namespace Splice

-- What a program asks of a file system. A path is relative to the working directory unless it is
-- absolute.
class FileAccess (m : Type → Type) where
  read : (path : String) → m (Except FileFault (List UInt8))
  write : (path : String) → List UInt8 → m (Except FileFault Unit)
  createDirectories : (path : String) → m (Except FileFault Unit)
  isFile : (path : String) → m Bool

def FileAccess.readText [Monad m] [FileAccess m] (path : String) :
    m (Except FileFault (List Char)) := do
  match ← read path with
  | .error fault => return .error fault
  | .ok bytes =>
    match String.fromUTF8? ⟨bytes.toArray⟩ with
    | none => return .error .notText
    | some text => return .ok text.toList

def FileAccess.writeText [FileAccess m] (path text : String) : m (Except FileFault Unit) :=
  write path text.toUTF8.toList

end Splice
