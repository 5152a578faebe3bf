import Splice.Command.Arguments
import Splice.Injection.Stored
import Splice.Keccak
import Splice.Report

namespace Splice.Command

inductive Failure
  | usage
  | library (error : Error)
  | notHexOrFile (text : String)
  | unreadableInput (path : String) (fault : FileFault)
  | unreadableConfig (fault : FileFault)
  | badConfig
  deriving DecidableEq

def Failure.message : Failure → String
  | usage => "usage: splice inject CONTRACT PRELUDE [--config PATH] [--artifacts DIR] [--out DIR] "
    ++ "[--no-persist] [--metadata-len BYTES] [--report]\n"
    ++ "       splice analyze BYTECODE [--artifacts DIR] [--metadata-len BYTES] [--json]\n"
    ++ "       splice decode BYTECODE"
  | library error => error.message
  | notHexOrFile text =>
    "expected 0x-prefixed hex or a file path, got " ++ Text.quotedString text
  | unreadableInput path fault => "failed to read " ++ path ++ ": " ++ fault.message
  | unreadableConfig fault => fault.message
  | badConfig => "the configuration file is malformed"

variable [Monad m] [FileAccess m]

-- Bytecode is given as marked hex text or by the path of a file. A file holds hex text if its name
-- says so, and bare bytes otherwise.
def codeOf (input : String) : m (Except Failure (List UInt8)) := do
  let trimmed := Text.trim input.toList
  let path := String.ofList trimmed
  if (Text.after? ['0', 'x'] trimmed).isSome then
    return (Hex.decodeMarked trimmed).mapError .library
  else if !(← FileAccess.isFile path) then
    return .error (.notHexOrFile path)
  else if Path.extension? path = some "hex" then
    match ← FileAccess.readText path with
    | .error fault => return .error (.unreadableInput path fault)
    | .ok text => return (Hex.decodeLoose text).mapError (.library <| .hex ·)
  else
    return (← FileAccess.read path).mapError (.unreadableInput path)

def line (text : String) : String :=
  text ++ "\n"

def decodeText (code : List UInt8) : String :=
  line ("length " ++ Numeral.decimal code.length ++ " bytes, keccak256 "
    ++ Hex.encode (Keccak.hash code))
    ++ String.join ((Program.decode code).instructions.map fun ins => line ins.listing)

def statsLine (r : Resolution) : String :=
  line ("steps " ++ Numeral.decimal r.stats.steps ++ ", forks "
    ++ Numeral.decimal r.stats.forksAttempted ++ " (" ++ Numeral.decimal r.stats.forksSkipped
    ++ " skipped), max depth " ++ Numeral.decimal r.stats.maxDepth ++ ", rescued "
    ++ Numeral.decimal r.rescued)

def analyzeCode (json : Bool) (suffix : Nat) (code : List UInt8) : Except Error String := do
  let r ← resolve (.decode (← withoutMetadata code suffix))
  return if json then line r.toJson.pretty else r.table ++ statsLine r

-- Metadata is expected at the end of the code of an artifact, and of no other code.
def analyze (q : AnalyzeRequest) : m (Except Failure String) := do
  match q.artifacts with
  | some directory =>
    match ← (Store.mk directory directory).load q.input with
    | .error e => return .error (.library e)
    | .ok artifact =>
      let suffix := q.metadataLen.getD Config.standard.metadataSuffix
      return (analyzeCode q.json suffix artifact.deployedBytecode).mapError .library
  | none =>
    match ← codeOf q.input with
    | .error failure => return .error failure
    | .ok code => return (analyzeCode q.json (q.metadataLen.getD 0) code).mapError .library

def configuration (path : Option String) : m (Except Failure Config) := do
  match path with
  | none => return .ok .standard
  | some path =>
    match ← FileAccess.readText path with
    | .error fault => return .error (.unreadableConfig fault)
    | .ok text =>
      match Config.parse? text with
      | none => return .error .badConfig
      | some config => return .ok config

def override (q : InjectRequest) (c : Config) : Config where
  metadataSuffix := q.metadataLen.getD c.metadataSuffix
  artifactDir := q.artifacts.getD c.artifactDir
  outputDir := q.out.getD c.outputDir
  persist := c.persist && !q.noPersist

def patchLine (p : Patch) : String :=
  line (p.group.text ++ " PUSH" ++ Numeral.decimal p.width ++ " at 0x" ++ Numeral.hexPadded 4 p.pc
    ++ ": 0x" ++ Numeral.hex p.before ++ " -> 0x" ++ Numeral.hex p.after)

def injectText (report : Bool) (i : Injection) : String :=
  (if report then i.resolution.table ++ String.join (i.patches.map patchLine) else "")
    ++ line ("INIT CODE: " ++ i.initHex) ++ line ("RUNTIME CODE: " ++ i.runtimeHex)

def inject (q : InjectRequest) : m (Except Failure String) := do
  match ← configuration q.config with
  | .error failure => return .error failure
  | .ok config =>
    match ← Injection.Stored.splice (override q config) q.contract q.prelude with
    | .error e => return .error (.library e)
    | .ok (injection, _) => return .ok (injectText q.report injection)

def run (arguments : List String) : m (Except Failure String) := do
  match Request.ofArguments? arguments with
  | none => return .error .usage
  | some (.inject q) => inject q
  | some (.analyze q) => analyze q
  | some (.decode input) => return (← codeOf input).map decodeText

end Splice.Command
