namespace Splice.Numeral

def decimal (n : Nat) : String :=
  .ofList (Nat.toDigits 10 n)

def hex (n : Nat) : String :=
  .ofList (Nat.toDigits 16 n)

def padLeft (width : Nat) (fill : Char) (text : String) : String :=
  .ofList (List.replicate (width - text.length) fill) ++ text

def padRight (width : Nat) (fill : Char) (text : String) : String :=
  text ++ .ofList (List.replicate (width - text.length) fill)

def hexPadded (width n : Nat) : String :=
  padLeft width '0' (hex n)

def hexDigits (b : UInt8) : List Char :=
  [Nat.digitChar (b.toNat / 16), Nat.digitChar (b.toNat % 16)]

def hexByte (b : UInt8) : String :=
  .ofList (hexDigits b)

def digitValue? (c : Char) : Option Nat :=
  if '0' ≤ c ∧ c ≤ '9' then some (c.toNat - 48)
  else if 'a' ≤ c ∧ c ≤ 'f' then some (c.toNat - 87)
  else if 'A' ≤ c ∧ c ≤ 'F' then some (c.toNat - 55)
  else none

theorem digitValue?_digitChar {n : Nat} (h : n < 16) : digitValue? (Nat.digitChar n) = some n := by
  have all : ∀ i : Fin 16, digitValue? (Nat.digitChar i) = some i.val := by decide
  exact all ⟨n, h⟩

inductive Fault
  | empty
  | invalidDigit
  | tooLarge
  deriving DecidableEq

def Fault.message : Fault → String
  | empty => "cannot parse integer from empty string"
  | invalidDigit => "invalid digit found in string"
  | tooLarge => "number too large to fit in target type"

-- Reads on from the value `n` of the digits so far. The digit that leads past the limit is the
-- fault, even if the text goes on with something that is no digit.
def readDigits (base limit n : Nat) : List Char → Except Fault Nat
  | [] => .ok n
  | c :: cs =>
    match digitValue? c with
    | none => .error .invalidDigit
    | some d =>
      if base ≤ d then .error .invalidDigit
      else if limit ≤ n * base + d then .error .tooLarge
      else readDigits base limit (n * base + d) cs

def read (base limit : Nat) : List Char → Except Fault Nat
  | [] => .error .empty
  | ['+'] => .error .invalidDigit
  | '+' :: cs => readDigits base limit 0 cs
  | cs => readDigits base limit 0 cs

end Splice.Numeral
