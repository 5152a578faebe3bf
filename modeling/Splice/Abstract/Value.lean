import Splice.Error

namespace Splice

-- What is known of a word before the code runs. Only a word that comes straight from a push has
-- that push as its origin.
inductive Knowledge
  | unknown
  | computed (word : Word)
  | pushed (pc : Nat) (word : Word)
  deriving DecidableEq

-- A slot of the abstract stack. The flag is set for good once the slot has been copied, on the copy
-- as well as on what was copied.
structure Value where
  known : Knowledge
  duplicated : Bool
  deriving DecidableEq

structure Value.Shape where
  constant : Bool
  duplicated : Bool
  deriving DecidableEq

namespace Value

def unknown : Value where
  known := .unknown
  duplicated := false

def constant (word : Word) : Value where
  known := .computed word
  duplicated := false

def pushed (pc : Nat) (word : Word) : Value where
  known := .pushed pc word
  duplicated := false

def ofImmediate (pc : Nat) (bytes : List UInt8) : Except Error Value :=
  if 32 < bytes.length then .error (.wideValue bytes.length pc)
  else .ok (pushed pc (.ofBytes bytes))

def ofOption : Option Word → Value
  | none => unknown
  | some word => constant word

def word? (v : Value) : Option Word :=
  match v.known with
  | .unknown => none
  | .computed word | .pushed _ word => some word

def origin? (v : Value) : Option Nat :=
  match v.known with
  | .pushed pc _ => some pc
  | _ => none

def isConstant (v : Value) : Bool :=
  v.word?.isSome

def isZero (v : Value) : Bool :=
  v.word? = some 0

def copied (v : Value) : Value :=
  { v with duplicated := true }

def shape (v : Value) : Shape where
  constant := v.isConstant
  duplicated := v.duplicated

def text (v : Value) : String :=
  let known :=
    match v.known with
    | .unknown => "?"
    | .computed word => "0x" ++ Numeral.hex word.toNat
    | .pushed pc word => "0x" ++ Numeral.hex word.toNat ++ "@" ++ Numeral.hex pc
  if v.duplicated then known ++ "*" else known

@[simp]
theorem word?_unknown : unknown.word? = none :=
  rfl

@[simp]
theorem word?_constant (w : Word) : (constant w).word? = some w :=
  rfl

@[simp]
theorem word?_pushed (pc : Nat) (w : Word) : (pushed pc w).word? = some w :=
  rfl

@[simp]
theorem word?_copied (v : Value) : v.copied.word? = v.word? :=
  rfl

@[simp]
theorem origin?_copied (v : Value) : v.copied.origin? = v.origin? :=
  rfl

@[simp]
theorem word?_ofOption (w : Option Word) : (ofOption w).word? = w := by
  cases w <;> rfl

@[simp]
theorem origin?_ofOption (w : Option Word) : (ofOption w).origin? = none := by
  cases w <;> rfl

@[simp]
theorem duplicated_ofOption (w : Option Word) : (ofOption w).duplicated = false := by
  cases w <;> rfl

end Value
end Splice
