import Splice.Text.Quoted
import Splice.Opcode
import Splice.Word

namespace Splice

open Numeral

-- The broad classes of errors. An `internalInvariant` error points at a defect of the program
-- itself, all others at its input or its surroundings.
inductive ErrorKind
  | malformedInput
  | unsupportedProgram
  | stackUnderflow
  | stackOverflow
  | invalidValue
  | outOfRange
  | internalInvariant
  | resourceExhaustion
  | io
  deriving DecidableEq

namespace ErrorKind

def all : List ErrorKind := [
  malformedInput, unsupportedProgram, stackUnderflow, stackOverflow, invalidValue, outOfRange,
  internalInvariant, resourceExhaustion, io
]

def isInternal (k : ErrorKind) : Bool :=
  k = internalInvariant

def text : ErrorKind → String
  | malformedInput => "malformed input"
  | unsupportedProgram => "unsupported program"
  | stackUnderflow => "stack underflow"
  | stackOverflow => "stack overflow"
  | invalidValue => "invalid value"
  | outOfRange => "out of range"
  | internalInvariant => "internal invariant violated"
  | resourceExhaustion => "resource exhaustion"
  | io => "i/o"

def tag : ErrorKind → String
  | malformedInput => "MalformedInput"
  | unsupportedProgram => "UnsupportedProgram"
  | stackUnderflow => "StackUnderflow"
  | stackOverflow => "StackOverflow"
  | invalidValue => "InvalidValue"
  | outOfRange => "OutOfRange"
  | internalInvariant => "InternalInvariant"
  | resourceExhaustion => "ResourceExhaustion"
  | io => "Io"

def ofTag? (s : String) : Option ErrorKind :=
  all.find? (·.tag = s)

end ErrorKind

inductive HexFault
  | oddLength
  | invalidChar (c : Char) (index : Nat)
  deriving DecidableEq

def HexFault.message : HexFault → String
  | oddLength => "Odd number of digits"
  | invalidChar c index =>
    "Invalid character " ++ Text.quotedChar c ++ " at position " ++ decimal index

inductive MnemonicFault
  | unknown (token : String)
  | badCount (family token : String)
  deriving DecidableEq

def MnemonicFault.message : MnemonicFault → String
  | unknown token => "unknown opcode: " ++ token
  | badCount family token => "invalid " ++ family ++ " opcode: " ++ token

inductive AssemblyFault
  | mnemonic (fault : MnemonicFault)
  | undefinedByte (token : String) (fault : Numeral.Fault)
  | missingImmediate (op : Opcode)
  | bareImmediate (token : String)
  | badImmediate (token : String) (fault : HexFault)
  | wideImmediate (token : String) (size width : Nat)
  deriving DecidableEq

def AssemblyFault.message : AssemblyFault → String
  | mnemonic fault => fault.message
  | undefinedByte token fault => "undefined opcode `" ++ token ++ "`: " ++ fault.message
  | missingImmediate op => op.name ++ " is missing its immediate"
  | bareImmediate token => "immediate `" ++ token ++ "` must be 0x-prefixed"
  | badImmediate token fault => "immediate `" ++ token ++ "`: " ++ fault.message
  | wideImmediate token size width =>
    "immediate `" ++ token ++ "` is " ++ decimal size ++ " bytes, wider than PUSH" ++ decimal width

inductive ImmediateFault
  | unexpected (op : Opcode) (pc size : Nat)
  | missing (width pc : Nat)
  | wrongSize (width size pc : Nat)
  deriving DecidableEq

def ImmediateFault.message : ImmediateFault → String
  | unexpected op pc size =>
    op.name ++ " at pc=" ++ decimal pc ++ " takes no immediate, got " ++ decimal size ++ " bytes"
  | missing width pc => "PUSH" ++ decimal width ++ " missing immediate at pc=" ++ decimal pc
  | wrongSize width size pc =>
    "PUSH" ++ decimal width ++ " requires " ++ decimal width ++ "-byte immediate, got "
      ++ decimal size ++ " bytes at pc=" ++ decimal pc

inductive FileFault
  | noEntry
  | alreadyExists
  | notDirectory
  | isDirectory
  | longName
  | zeroInName
  | notText
  | other (message : String)
  deriving DecidableEq

def FileFault.message : FileFault → String
  | noEntry => "No such file or directory (os error 2)"
  | alreadyExists => "File exists (os error 17)"
  | notDirectory => "Not a directory (os error 20)"
  | isDirectory => "Is a directory (os error 21)"
  | longName => "File name too long (os error 36)"
  | zeroInName => "file name contained an unexpected NUL byte"
  | notText => "stream did not contain valid UTF-8"
  | other message => message

inductive SiteKind
  | jump
  | codecopy
  deriving DecidableEq

def SiteKind.text : SiteKind → String
  | jump => "jump"
  | codecopy => "CODECOPY"

inductive CopyGap
  | computed
  | dynamic
  | unreached
  deriving DecidableEq

def CopyGap.text : CopyGap → String
  | computed => "source offset is computed, not pushed"
  | dynamic => "source offset is not constant"
  | unreached => "never reached"

-- The pushes of one group have to agree in their width: those that feed jumps and those that feed
-- code copies in the runtime code, and the push of the runtime length in the init code.
inductive PushGroup
  | jump
  | codecopy
  | length
  deriving DecidableEq

def PushGroup.text : PushGroup → String
  | jump => "jump"
  | codecopy => "codecopy"
  | length => "length"

inductive Error
  | unreadable (path : String) (fault : FileFault)
  | unwritable (path : String) (fault : FileFault)
  | hex (fault : HexFault)
  | missingHexMark (text : String)
  | immediate (fault : ImmediateFault)
  | json
  | metadataTooShort (size suffix : Nat)
  | assembly (line : Nat) (fault : AssemblyFault) (text : String)
  | stackUnderflow (op : Opcode) (needed depth : Nat)
  | stackOverflow
  | wideValue (size pc : Nat)
  | wideExponent (size : Nat)
  | nonConstantJump (pc : Nat)
  | computedJump (pc : Nat)
  | invalidJump (pc : Nat) (destination : Word)
  | unresolvedJump (pc : Nat)
  | duplicatedOrigin (pc : Nat) (site : SiteKind) (origin : Nat)
  | unresolvedCopy (pc : Nat) (gap : CopyGap)
  | deltaMismatch (pc : Nat) (op : Opcode) (declared realized : Int)
  | undecidedCondition (pc : Nat)
  | stepLimit (limit : Nat)
  | missingEpilogue
  | runtimeMismatch (offset expected found : Nat)
  | truncatedPush (pc : Nat)
  | missingPush (pc : Nat)
  | unsupportedWidth (group : PushGroup) (pc width : Nat)
  | inconsistentWidth (group : PushGroup) (pc expected found : Nat)
  | patchOverflow (pc width value delta : Nat)
  deriving DecidableEq

namespace Error

def kind : Error → ErrorKind
  | unreadable .. | unwritable .. => .io
  | hex .. | missingHexMark .. | immediate .. | json | metadataTooShort .. | assembly ..
  | missingEpilogue | runtimeMismatch .. | truncatedPush .. => .malformedInput
  | stackUnderflow .. => .stackUnderflow
  | stackOverflow => .stackOverflow
  | wideValue .. => .invalidValue
  | wideExponent .. => .outOfRange
  | nonConstantJump .. | computedJump .. | invalidJump .. | unresolvedJump ..
  | duplicatedOrigin .. | unresolvedCopy .. | unsupportedWidth .. | inconsistentWidth ..
  | patchOverflow .. => .unsupportedProgram
  | deltaMismatch .. | undecidedCondition .. | missingPush .. => .internalInvariant
  | stepLimit .. => .resourceExhaustion

def atPc (pc : Nat) : String :=
  "at pc 0x" ++ Numeral.hex pc

def signed : Int → String
  | .ofNat n => decimal n
  | .negSucc n => "-" ++ decimal (n + 1)

def message : Error → String
  | unreadable path fault => "could not read file \x27" ++ path ++ "\x27: " ++ fault.message
  | unwritable path fault => "could not write file \x27" ++ path ++ "\x27: " ++ fault.message
  | hex fault => "hex decode failed: " ++ fault.message
  | missingHexMark text => "expected a 0x-prefixed hex string, got `" ++ text ++ "`"
  | immediate fault => "invalid immediate: " ++ fault.message
  | json => "artifact json error"
  | metadataTooShort size suffix =>
    "deployed bytecode is " ++ decimal size ++ " bytes, shorter than the " ++ decimal suffix
      ++ "-byte metadata suffix"
  | assembly line fault text =>
    "assembly parse error at line " ++ decimal line ++ ": " ++ fault.message ++ " ⇒ `" ++ text
      ++ "`"
  | stackUnderflow op needed depth =>
    "stack underflow: " ++ op.name ++ " needs " ++ decimal needed ++ " items, stack has "
      ++ decimal depth
  | stackOverflow => "stack overflow: depth limit of 1024 reached"
  | wideValue size pc =>
    "invalid value: " ++ decimal size ++ "-byte immediate " ++ atPc pc
      ++ " does not fit in 256 bits"
  | wideExponent size =>
    "operand out of range: EXP exponent is " ++ decimal size ++ " bytes, expected 1 to 32"
  | nonConstantJump pc => "non-constant jump target " ++ atPc pc
  | computedJump pc => "jump " ++ atPc pc ++ " has a computed target with no originating PUSH"
  | invalidJump pc destination =>
    "jump " ++ atPc pc ++ " does not target a JUMPDEST (destination 0x"
      ++ Numeral.hex destination.toNat ++ ")"
  | unresolvedJump pc => "cannot assign an originating PUSH to the jump " ++ atPc pc
  | duplicatedOrigin pc site origin =>
    "PUSH " ++ atPc origin ++ " feeding " ++ site.text ++ " " ++ atPc pc ++ " is duplicated"
  | unresolvedCopy pc gap =>
    "cannot assign an originating PUSH to the CODECOPY " ++ atPc pc ++ ": " ++ gap.text
  | deltaMismatch pc op declared realized =>
    "stack delta mismatch " ++ atPc pc ++ ": " ++ op.name ++ " declares " ++ signed declared
      ++ ", realized " ++ signed realized
  | undecidedCondition pc => "JUMPI " ++ atPc pc ++ " executed with an unconcretized condition"
  | stepLimit limit => "analysis exceeded the " ++ decimal limit ++ "-step budget"
  | missingEpilogue =>
    "no runtime copy epilogue (PUSH DUP1 PUSH PUSH CODECOPY PUSH RETURN) in init code"
  | runtimeMismatch offset expected found =>
    "runtime payload at init offset 0x" ++ Numeral.hex offset ++ " (" ++ decimal found
      ++ " bytes) does not match the " ++ decimal expected ++ "-byte deployed bytecode"
  | truncatedPush pc => "PUSH " ++ atPc pc ++ " is truncated and cannot be patched"
  | missingPush pc => "origin pc 0x" ++ Numeral.hex pc ++ " does not address a PUSH instruction"
  | unsupportedWidth group pc width =>
    group.text ++ " push " ++ atPc pc ++ " is PUSH" ++ decimal width
      ++ "; only PUSH1 and PUSH2 are supported"
  | inconsistentWidth group pc expected found =>
    "inconsistent push width in " ++ group.text ++ " group: PUSH" ++ decimal found ++ " "
      ++ atPc pc ++ ", expected PUSH" ++ decimal expected
  | patchOverflow pc width value delta =>
    "patching PUSH" ++ decimal width ++ " " ++ atPc pc ++ " by " ++ decimal delta
      ++ " overflows its immediate (value 0x" ++ Numeral.hex value ++ ")"

end Error
end Splice
