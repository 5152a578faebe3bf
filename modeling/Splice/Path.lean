import Splice.Text.Blank

namespace Splice.Path

-- A name that starts at the root stands alone, and so does one that is joined to nothing.
def join (directory name : String) : String :=
  if name.toList.head? = some '/' ∨ directory.isEmpty then name
  else if directory.toList.getLast? = some '/' then directory ++ name
  else directory ++ "/" ++ name

def parts (path : String) : List String :=
  (Text.split (· == '/') path.toList).map String.ofList

def isAbsolute (path : String) : Bool :=
  path.toList.head? = some '/'

def withoutTrailingSlashes (path : String) : String :=
  .ofList (path.toList.reverse.dropWhile (· == '/')).reverse

-- The parts of a path that name something: neither empty ones nor dots, but for a dot in front.
def names (path : String) : List String :=
  match parts path with
  | [] => []
  | first :: rest =>
    [first].filter (· ≠ "") ++ rest.filter fun part => part ≠ "" ∧ part ≠ "."

def ancestors (path : String) : List String :=
  let names := names path
  let root := if isAbsolute path then "/" else ""
  path :: (List.range names.length).reverse.map fun n => root ++ "/".intercalate (names.take n)

def extension? (path : String) : Option String :=
  let name := ((parts path).getLast?.getD "").toList
  if name.contains '.' ∧ (name.reverse.dropWhile (· ≠ '.')).length ≠ 1 then
    some (.ofList (name.reverse.takeWhile (· ≠ '.')).reverse)
  else
    none

end Splice.Path
