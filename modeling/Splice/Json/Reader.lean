import Splice.Json.Token

namespace Splice.Json

-- Each call reads a token or hands on to one that does, so twice as many nested calls as there are
-- tokens are enough.
mutual

def readValue : (calls : Nat) → List Token → Option (Json × List Token)
  | calls + 1, token :: rest =>
    match token with
    | .scalar value => some (value, rest)
    | .string body => some (.string body, rest)
    | .openBracket =>
      match rest with
      | .closeBracket :: rest => some (.array [], rest)
      | _ => do
        let (items, rest) ← readItems calls rest
        return (.array items, rest)
    | .openBrace =>
      match rest with
      | .closeBrace :: rest => some (.object [], rest)
      | _ => do
        let (members, rest) ← readMembers calls rest
        return (.object members, rest)
    | _ => none
  | _, _ => none

def readItems : (calls : Nat) → List Token → Option (List Json × List Token)
  | calls + 1, tokens => do
    let (item, rest) ← readValue calls tokens
    match rest with
    | .closeBracket :: rest => return ([item], rest)
    | .comma :: rest => do
      let (items, rest) ← readItems calls rest
      return (item :: items, rest)
    | _ => none
  | _, _ => none

def readMembers : (calls : Nat) → List Token → Option (List (List Char × Json) × List Token)
  | calls + 1, .string key :: .colon :: rest => do
    let (value, rest) ← readValue calls rest
    match rest with
    | .closeBrace :: rest => return ([(key, value)], rest)
    | .comma :: rest => do
      let (members, rest) ← readMembers calls rest
      return ((key, value) :: members, rest)
    | _ => none
  | _, _ => none

end

def parse? (text : List Char) : Option Json := do
  let tokens ← Token.scan .between text
  match ← readValue (2 * tokens.length + 1) tokens with
  | (value, []) => some value
  | _ => none

-- The members of an object by their keys, or the items of an array in the order of the fields that
-- they are meant for. Members under other keys are passed over, and none may stand twice under a
-- key that is asked for.
def fields? (names : List String) : Json → Option (List (Option Json))
  | .array items =>
    if items.length ≤ names.length then
      some (items.map some ++ List.replicate (names.length - items.length) none)
    else none
  | .object members => do
    let named ← members.mapM fun (key, value) => do return (← unescape key, value)
    names.mapM fun name =>
      match named.filter (·.1 = name.toList) with
      | [] => some none
      | [(_, value)] => some (some value)
      | _ => none
  | _ => none

end Splice.Json
