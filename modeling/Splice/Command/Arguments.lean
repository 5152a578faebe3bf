import Splice.BigEndian
import Splice.Numeral

namespace Splice.Command

-- The words of a command line, sorted: those that stand for themselves, options with their values,
-- and flags. No option and no flag stands there twice.
structure Words where
  positionals : List String
  values : List (String × String)
  flags : List String

namespace Words

def empty : Words where
  positionals := []
  values := []
  flags := []

def value? (w : Words) (name : String) : Option String :=
  (w.values.find? (·.1 = name)).map (·.2)

def hasFlag (w : Words) (name : String) : Bool :=
  w.flags.contains name

def addPositional (w : Words) (word : String) : Words :=
  { w with positionals := word :: w.positionals }

def addValue (w : Words) (name value : String) : Option Words :=
  if value.isEmpty ∨ (w.value? name).isSome then none
  else some { w with values := (name, value) :: w.values }

def addFlag (w : Words) (name : String) : Option Words :=
  if w.hasFlag name then none else some { w with flags := name :: w.flags }

end Words

def isOption (word : String) : Bool :=
  word.toList.head? = some '-' && word != "-"

def assignment? (word : String) : Option (String × String) :=
  let cs := word.toList
  if cs.contains '=' then
    some (.ofList (cs.takeWhile (· ≠ '=')), .ofList ((cs.dropWhile (· ≠ '=')).drop 1))
  else
    none

-- Sorts the words of a command that knows the given options and flags. Two dashes end the options.
def sortWords (options flags : List String) : List String → Option Words
  | [] => some .empty
  | word :: rest =>
    if word = "--" then
      some { Words.empty with positionals := rest }
    else if !isOption word then do
      return (← sortWords options flags rest).addPositional word
    else if flags.contains word then do
      (← sortWords options flags rest).addFlag word
    else if options.contains word then
      match rest with
      | value :: rest =>
        if isOption value then none
        else do (← sortWords options flags rest).addValue word value
      | [] => none
    else
      match assignment? word with
      | some (name, value) =>
        if options.contains name then do (← sortWords options flags rest).addValue name value
        else none
      | none => none

structure InjectRequest where
  contract : String
  prelude : String
  config : Option String
  artifacts : Option String
  out : Option String
  noPersist : Bool
  metadataLen : Option Nat
  report : Bool

structure AnalyzeRequest where
  input : String
  artifacts : Option String
  metadataLen : Option Nat
  json : Bool

inductive Request
  | inject (request : InjectRequest)
  | analyze (request : AnalyzeRequest)
  | decode (input : String)

def size? (w : Words) (name : String) : Option (Option Nat) :=
  match w.value? name with
  | none => some none
  | some text => (Numeral.read 10 (BigEndian.bound 8) text.toList).toOption.map some

def Request.ofArguments? : List String → Option Request
  | "inject" :: words => do
    let w ← sortWords ["--config", "--artifacts", "--out", "--metadata-len"]
      ["--no-persist", "--report"] words
    let metadataLen ← size? w "--metadata-len"
    match w.positionals with
    | [contract, prelude] =>
      return .inject {
        contract, prelude, metadataLen
        config := w.value? "--config"
        artifacts := w.value? "--artifacts"
        out := w.value? "--out"
        noPersist := w.hasFlag "--no-persist"
        report := w.hasFlag "--report"
      }
    | _ => none
  | "analyze" :: words => do
    let w ← sortWords ["--artifacts", "--metadata-len"] ["--json"] words
    let metadataLen ← size? w "--metadata-len"
    match w.positionals with
    | [input] =>
      return .analyze {
        input, metadataLen
        artifacts := w.value? "--artifacts"
        json := w.hasFlag "--json"
      }
    | _ => none
  | "decode" :: words => do
    let w ← sortWords [] [] words
    match w.positionals with
    | [input] => return .decode input
    | _ => none
  | _ => none

end Splice.Command
