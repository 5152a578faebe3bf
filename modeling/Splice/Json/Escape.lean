import Splice.BigEndian
import Splice.Json
import Splice.Numeral

namespace Splice.Json

open Numeral

def escapeChar (c : Char) : List Char :=
  if c = '"' then ['\\', '"']
  else if c = '\\' then ['\\', '\\']
  else if c = '\n' then ['\\', 'n']
  else if c = '\r' then ['\\', 'r']
  else if c = '\t' then ['\\', 't']
  else if c = '\x08' then ['\\', 'b']
  else if c = '\x0c' then ['\\', 'f']
  else if c.toNat < 0x20 then ['\\', 'u', '0', '0'] ++ hexDigits (.ofNat c.toNat)
  else [c]

def escape (text : List Char) : List Char :=
  text.flatMap escapeChar

def simpleEscape? (c : Char) : Option Char :=
  if c = '"' ∨ c = '\\' ∨ c = '/' then some c
  else if c = 'n' then some '\n'
  else if c = 'r' then some '\r'
  else if c = 't' then some '\t'
  else if c = 'b' then some '\x08'
  else if c = 'f' then some '\x0c'
  else none

def unit? (a b c d : Char) : Option Nat := do
  return (((← digitValue? a) * 16 + (← digitValue? b)) * 16 + (← digitValue? c)) * 16
    + (← digitValue? d)

-- Whether a text can stand between quotes. A backslash has to start an escape, but the halves of a
-- surrogate pair are not looked at.
def isBody : List Char → Bool
  | [] => true
  | '\\' :: 'u' :: a :: b :: c :: d :: rest => (unit? a b c d).isSome && isBody rest
  | '\\' :: c :: rest => (simpleEscape? c).isSome && isBody rest
  | c :: rest => c != '\\' && 0x20 ≤ c.toNat && isBody rest

-- Reads a body on to the characters `done`, the last of them first. The two halves of a surrogate
-- pair make one character, and a half without the other makes none.
def unescapeOnto (done : List Char) : List Char → Option (List Char)
  | [] => some done.reverse
  | '\\' :: 'u' :: a :: b :: c :: d :: rest =>
    match unit? a b c d with
    | none => none
    | some high =>
      if 0xd800 ≤ high ∧ high < 0xdc00 then
        match rest with
        | '\\' :: 'u' :: e :: f :: g :: h :: rest =>
          match unit? e f g h with
          | none => none
          | some low =>
            if 0xdc00 ≤ low ∧ low < 0xe000 then
              let c := Char.ofNat (0x10000 + (high - 0xd800) * 0x400 + (low - 0xdc00))
              unescapeOnto (c :: done) rest
            else none
        | _ => none
      else if 0xdc00 ≤ high ∧ high < 0xe000 then none
      else unescapeOnto (Char.ofNat high :: done) rest
  | '\\' :: c :: rest =>
    match simpleEscape? c with
    | none => none
    | some c => unescapeOnto (c :: done) rest
  | c :: rest => unescapeOnto (c :: done) rest

def unescape (body : List Char) : Option (List Char) :=
  unescapeOnto [] body

def ofText (s : String) : Json :=
  .string (escape s.toList)

def ofNat (n : Nat) : Json :=
  .number (Nat.toDigits 10 n)

def ofMembers (members : List (String × Json)) : Json :=
  .object (members.map fun (key, value) => (escape key.toList, value))

def chars? : Json → Option (List Char)
  | .string body => unescape body
  | _ => none

def text? (value : Json) : Option String :=
  value.chars?.map String.ofList

def bool? : Json → Option Bool
  | .bool b => some b
  | _ => none

def size? : Json → Option Nat
  | .number literal => (readDigits 10 (BigEndian.bound 8) 0 literal).toOption
  | _ => none

end Splice.Json
