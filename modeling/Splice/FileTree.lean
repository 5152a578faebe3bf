import Splice.FileAccess
import Splice.Path

namespace Splice

inductive Node
  | file (bytes : List UInt8)
  | directory
  deriving DecidableEq

-- Files and directories by the names on the way to them. The way starts in the working directory,
-- and may first lead out of it by steps of `..`, or it starts at the root, `/`. Outside of the
-- working directory nothing is known but what was put there.
structure FileTree where
  nodes : List (List String × Node)
  deriving DecidableEq

namespace FileTree

def empty : FileTree where
  nodes := []

-- The working directory, those that it lies in, and the root are always there.
def isStanding (place : List String) : Bool :=
  place = ["/"] || place.all (· = "..")

def parent (place : List String) : List String :=
  if place = ["/"] then place
  else if isStanding place then place ++ [".."]
  else place.dropLast

def node? (t : FileTree) (place : List String) : Option Node :=
  if isStanding place then some .directory else (t.nodes.find? (·.1 = place)).map (·.2)

def put (t : FileTree) (place : List String) (node : Node) : FileTree where
  nodes := (place, node) :: t.nodes.filter (·.1 ≠ place)

-- The place that a path leads to from the directory `here`. Everything on the way has to be a
-- directory that is there; the last name need not be.
def walk (t : FileTree) (here : List String) : List String → Except FileFault (List String)
  | [] => .ok here
  | part :: rest =>
    if part = "" ∨ part = "." then walk t here rest
    else if part = ".." then walk t (parent here) rest
    else if 255 < part.utf8ByteSize then .error .longName
    else
      match rest with
      | [] => .ok (here ++ [part])
      | _ =>
        match t.node? (here ++ [part]) with
        | some .directory => walk t (here ++ [part]) rest
        | some (.file _) => .error .notDirectory
        | none => .error .noEntry

def checkPath (path : String) : Except FileFault Unit :=
  if path.toList.contains (Char.ofNat 0) then .error .zeroInName
  else if 4095 < path.utf8ByteSize then .error .longName
  else if path.isEmpty then .error .noEntry
  else .ok ()

def start (path : String) : List String :=
  if Path.isAbsolute path then ["/"] else []

def place (t : FileTree) (path : String) : Except FileFault (List String) := do
  checkPath path
  t.walk (start path) (Path.parts path)

def find? (t : FileTree) (path : String) : Option Node :=
  match t.place path with
  | .ok place => t.node? place
  | .error _ => none

def isDirectory (t : FileTree) (path : String) : Bool :=
  t.find? path = some .directory

def read (t : FileTree) (path : String) : Except FileFault (List UInt8) := do
  match t.node? (← t.place path) with
  | some (.file bytes) => return bytes
  | some .directory => .error .isDirectory
  | none => .error .noEntry

def write (t : FileTree) (path : String) (bytes : List UInt8) : Except FileFault FileTree := do
  let place ← t.place path
  match t.node? place with
  | some .directory => .error .isDirectory
  | _ => return t.put place (.file bytes)

def createDirectory (t : FileTree) (path : String) : Except FileFault FileTree := do
  checkPath path
  let place ← t.walk (start path) (Path.parts (Path.withoutTrailingSlashes path))
  match t.node? place with
  | some _ => .error .alreadyExists
  | none => return t.put place .directory

-- Creates the first of the given directories, each of which lies in the next one. Directories that
-- were created on the way stay even if the first one cannot be.
def createAll (t : FileTree) : List String → Except FileFault Unit × FileTree
  | [] => (.error (.other "failed to create whole tree"), t)
  | path :: above =>
    let accept (t : FileTree) (fault : FileFault) :=
      if t.isDirectory path then (.ok (), t) else (.error fault, t)
    if path.isEmpty then
      (.ok (), t)
    else
      match t.createDirectory path with
      | .ok t => (.ok (), t)
      | .error .noEntry =>
        match createAll t above with
        | (.error fault, t) => (.error fault, t)
        | (.ok (), t) =>
          match t.createDirectory path with
          | .ok t => (.ok (), t)
          | .error fault => accept t fault
      | .error fault => accept t fault

def createDirectories (t : FileTree) (path : String) : Except FileFault Unit × FileTree :=
  t.createAll (Path.ancestors path)

instance : FileAccess (StateM FileTree) where
  read path := do return (← get).read path
  write path bytes := do
    match (← get).write path bytes with
    | .ok t => set t; return .ok ()
    | .error fault => return .error fault
  createDirectories path := modifyGet (createDirectories · path)
  isFile path := do
    match (← get).find? path with
    | some (.file _) => return true
    | _ => return false

end FileTree
end Splice
