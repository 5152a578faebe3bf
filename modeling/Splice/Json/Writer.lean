import Splice.Json.Escape

namespace Splice.Json

-- In the compact form nothing stands between tokens; in the indented form each item has a line of
-- its own, two spaces deeper than what it belongs to.
def lineBreak : (indent : Option Nat) → List Char
  | none => []
  | some depth => '\n' :: List.replicate (2 * depth) ' '

def colon : (indent : Option Nat) → List Char
  | none => [':']
  | some _ => [':', ' ']

def quoted (body : List Char) : List Char :=
  '"' :: body ++ ['"']

mutual

def write (indent : Option Nat) : Json → List Char
  | .null => "null".toList
  | .bool true => "true".toList
  | .bool false => "false".toList
  | .number literal => literal
  | .string body => quoted body
  | .array [] => ['[', ']']
  | .array (item :: items) =>
    let inner := indent.map (· + 1)
    '[' :: lineBreak inner ++ write inner item ++ writeItems inner items ++ lineBreak indent
      ++ [']']
  | .object [] => ['\x7b', '\x7d']
  | .object ((key, value) :: members) =>
    let inner := indent.map (· + 1)
    '\x7b' :: lineBreak inner ++ quoted key ++ colon indent ++ write inner value
      ++ writeMembers inner members ++ lineBreak indent ++ ['\x7d']

def writeItems (indent : Option Nat) : List Json → List Char
  | [] => []
  | item :: items => ',' :: lineBreak indent ++ write indent item ++ writeItems indent items

def writeMembers (indent : Option Nat) : List (List Char × Json) → List Char
  | [] => []
  | (key, value) :: members =>
    ',' :: lineBreak indent ++ quoted key ++ colon indent ++ write indent value
      ++ writeMembers indent members

end

def compact (value : Json) : String :=
  .ofList (value.write none)

def pretty (value : Json) : String :=
  .ofList (value.write (some 0))

end Splice.Json
