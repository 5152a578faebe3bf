import Splice.Layout
import Splice.Patch
import Splice.Prelude
import Splice.Resolution

namespace Splice

-- Compilers append a description of fixed length to the code that they deploy.
def withoutMetadata (deployed : List UInt8) (suffix : Nat) : Except Error (List UInt8) :=
  if suffix ≤ deployed.length then .ok (deployed.take (deployed.length - suffix))
  else .error (.metadataTooShort deployed.length suffix)

structure Injection where
  initCode : List UInt8
  runtimeCode : List UInt8
  layout : Layout
  resolution : Resolution
  patches : List Patch
  deriving DecidableEq

namespace Injection

def initHex (i : Injection) : String :=
  Hex.encode i.initCode

def runtimeHex (i : Injection) : String :=
  Hex.encode i.runtimeCode

end Injection

-- Splices the prelude in. Every offset that the runtime code pushes for a jump or for a copy of
-- itself grows by the length of the prelude, and so does the length of the runtime code in the init
-- code. The last `suffix` bytes of the deployed code are kept but not read as instructions.
def inject (init deployed : List UInt8) (prelude : Prelude) (suffix : Nat) :
    Except Error Injection := do
  let layout ← Layout.locate init deployed
  let program := Program.decode (← withoutMetadata deployed suffix)
  let resolution ← resolve program
  let runtime := Patcher.start prelude.size deployed
  let runtime ← (runtime.patch program .jump resolution.jumpOrigins).settle
  let runtime ← (runtime.patch program .codecopy resolution.copyOrigins).settle
  let constructor := Patcher.start prelude.size (init.take layout.runtimeOffset)
  let constructor ←
    (constructor.patch (Program.decode init) .length [layout.lengthPc]).settle
  return {
    initCode := constructor.code ++ prelude.bytes ++ runtime.code
    runtimeCode := prelude.bytes ++ runtime.code
    layout
    resolution
    patches := runtime.patches ++ constructor.patches
  }

end Splice
