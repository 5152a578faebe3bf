import Splice.Json.Escape

namespace Splice.Json

inductive Token
  | openBrace
  | closeBrace
  | openBracket
  | closeBracket
  | colon
  | comma
  | string (body : List Char)
  | scalar (value : Json)

namespace Token

def isSpace (c : Char) : Bool :=
  c == ' ' || c == '\t' || c == '\n' || c == '\r'

def isDigit (c : Char) : Bool :=
  '0' ≤ c && c ≤ '9'

def areDigits (cs : List Char) : Bool :=
  !cs.isEmpty && cs.all isDigit

def isExponent : List Char → Bool
  | [] => true
  | e :: '+' :: rest | e :: '-' :: rest => (e == 'e' || e == 'E') && areDigits rest
  | e :: rest => (e == 'e' || e == 'E') && areDigits rest

def isFraction : List Char → Bool
  | '.' :: rest => areDigits (rest.takeWhile isDigit) && isExponent (rest.dropWhile isDigit)
  | rest => isExponent rest

def isMagnitude : List Char → Bool
  | '0' :: rest => isFraction rest
  | cs => areDigits (cs.takeWhile isDigit) && isFraction (cs.dropWhile isDigit)

def isNumber : List Char → Bool
  | '-' :: rest => isMagnitude rest
  | cs => isMagnitude cs

def punctuation? (c : Char) : Option Token :=
  if c = '\x7b' then some openBrace
  else if c = '\x7d' then some closeBrace
  else if c = '[' then some openBracket
  else if c = ']' then some closeBracket
  else if c = ':' then some colon
  else if c = ',' then some comma
  else none

def ofBody? (body : List Char) : Option Token :=
  if isBody body then some (string body) else none

def ofWord? (word : List Char) : Option Token :=
  if word = "null".toList then some (scalar .null)
  else if word = "true".toList then some (scalar (.bool true))
  else if word = "false".toList then some (scalar (.bool false))
  else if isNumber word then some (scalar (.number word))
  else none

-- What the characters before the next one belong to; those of an open string or word stand in
-- reverse. A word is a run of characters that are neither space nor punctuation nor a quote.
inductive Mode
  | between
  | word (read : List Char)
  | string (read : List Char) (escaped : Bool)

def scan : Mode → List Char → Option (List Token)
  | .between, [] => some []
  | .word read, [] => (ofWord? read.reverse).map ([·])
  | .string _ _, [] => none
  | .string read true, c :: cs => scan (.string (c :: read) false) cs
  | .string read false, c :: cs =>
    if c = '"' then do
      let token ← ofBody? read.reverse
      return token :: (← scan .between cs)
    else
      scan (.string (c :: read) (c = '\\')) cs
  | .between, c :: cs =>
    if isSpace c then scan .between cs
    else if c = '"' then scan (.string [] false) cs
    else if let some token := punctuation? c then do return token :: (← scan .between cs)
    else scan (.word [c]) cs
  | .word read, c :: cs =>
    if isSpace c then do
      let token ← ofWord? read.reverse
      return token :: (← scan .between cs)
    else if c = '"' then do
      let token ← ofWord? read.reverse
      return token :: (← scan (.string [] false) cs)
    else if let some mark := punctuation? c then do
      let token ← ofWord? read.reverse
      return token :: mark :: (← scan .between cs)
    else
      scan (.word (c :: read)) cs

end Token
end Splice.Json
