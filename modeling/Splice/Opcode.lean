import Splice.Numeral

namespace Splice

-- An operation of the machine, as of the Prague fork. The families `push`, `dup` and `swap` are
-- counted by `n`, and a `push n` is followed by an immediate of `n` bytes. The names from `clz` on
-- belong to later forks: code may hold their bytes, but executing one halts like `invalid`. A byte
-- without any name is `unknown`.
inductive Opcode
  | stop | add | mul | sub | div | sdiv | mod | smod | addmod | mulmod | exp | signextend | lt
  | gt | slt | sgt | eq | iszero | and | or | xor | not | byte | shl | shr | sar | keccak256
  | address | balance | origin | caller | callvalue | calldataload | calldatasize | calldatacopy
  | codesize | codecopy | gasprice | extcodesize | extcodecopy | returndatasize | returndatacopy
  | extcodehash | blockhash | coinbase | timestamp | number | difficulty | gaslimit | chainid
  | selfbalance | basefee | blobhash | blobbasefee | pop | mload | mstore | mstore8 | sload
  | sstore | jump | jumpi | pc | msize | gas | jumpdest | tload | tstore | mcopy | push0 | log0
  | log1 | log2 | log3 | log4 | create | call | callcode | ret | delegatecall | create2
  | staticcall | revert | invalid | selfdestruct
  | push (n : Nat) | dup (n : Nat) | swap (n : Nat)
  | clz | dataload | dataloadn | datasize | datacopy | rjump | rjumpi | rjumpv | callf | retf
  | jumpf | dupn | swapn | exchange | eofcreate | returncontract | returndataload | extcall
  | extdelegatecall | extstaticcall
  | unknown (byte : UInt8)
  deriving DecidableEq

namespace Opcode

def named : List Opcode := [
  .stop, .add, .mul, .sub, .div, .sdiv, .mod, .smod, .addmod, .mulmod, .exp, .signextend, .lt,
  .gt, .slt, .sgt, .eq, .iszero, .and, .or, .xor, .not, .byte, .shl, .shr, .sar, .keccak256,
  .address, .balance, .origin, .caller, .callvalue, .calldataload, .calldatasize, .calldatacopy,
  .codesize, .codecopy, .gasprice, .extcodesize, .extcodecopy, .returndatasize, .returndatacopy,
  .extcodehash, .blockhash, .coinbase, .timestamp, .number, .difficulty, .gaslimit, .chainid,
  .selfbalance, .basefee, .blobhash, .blobbasefee, .pop, .mload, .mstore, .mstore8, .sload,
  .sstore, .jump, .jumpi, .pc, .msize, .gas, .jumpdest, .tload, .tstore, .mcopy, .push0, .log0,
  .log1, .log2, .log3, .log4, .create, .call, .callcode, .ret, .delegatecall, .create2,
  .staticcall, .revert, .invalid, .selfdestruct, .clz, .dataload, .dataloadn, .datasize,
  .datacopy, .rjump, .rjumpi, .rjumpv, .callf, .retf, .jumpf, .dupn, .swapn, .exchange,
  .eofcreate, .returncontract, .returndataload, .extcall, .extdelegatecall, .extstaticcall
]

def toByte : Opcode → UInt8
  | stop => 0x00 | add => 0x01 | mul => 0x02 | sub => 0x03 | div => 0x04 | sdiv => 0x05
  | mod => 0x06 | smod => 0x07 | addmod => 0x08 | mulmod => 0x09 | exp => 0x0a
  | signextend => 0x0b | lt => 0x10 | gt => 0x11 | slt => 0x12 | sgt => 0x13 | eq => 0x14
  | iszero => 0x15 | and => 0x16 | or => 0x17 | xor => 0x18 | not => 0x19 | byte => 0x1a
  | shl => 0x1b | shr => 0x1c | sar => 0x1d | keccak256 => 0x20 | address => 0x30
  | balance => 0x31 | origin => 0x32 | caller => 0x33 | callvalue => 0x34 | calldataload => 0x35
  | calldatasize => 0x36 | calldatacopy => 0x37 | codesize => 0x38 | codecopy => 0x39
  | gasprice => 0x3a | extcodesize => 0x3b | extcodecopy => 0x3c | returndatasize => 0x3d
  | returndatacopy => 0x3e | extcodehash => 0x3f | blockhash => 0x40 | coinbase => 0x41
  | timestamp => 0x42 | number => 0x43 | difficulty => 0x44 | gaslimit => 0x45 | chainid => 0x46
  | selfbalance => 0x47 | basefee => 0x48 | blobhash => 0x49 | blobbasefee => 0x4a | pop => 0x50
  | mload => 0x51 | mstore => 0x52 | mstore8 => 0x53 | sload => 0x54 | sstore => 0x55
  | jump => 0x56 | jumpi => 0x57 | pc => 0x58 | msize => 0x59 | gas => 0x5a | jumpdest => 0x5b
  | tload => 0x5c | tstore => 0x5d | mcopy => 0x5e | push0 => 0x5f | log0 => 0xa0 | log1 => 0xa1
  | log2 => 0xa2 | log3 => 0xa3 | log4 => 0xa4 | create => 0xf0 | call => 0xf1 | callcode => 0xf2
  | ret => 0xf3 | delegatecall => 0xf4 | create2 => 0xf5 | staticcall => 0xfa | revert => 0xfd
  | invalid => 0xfe | selfdestruct => 0xff | clz => 0x1e | dataload => 0xd0 | dataloadn => 0xd1
  | datasize => 0xd2 | datacopy => 0xd3 | rjump => 0xe0 | rjumpi => 0xe1 | rjumpv => 0xe2
  | callf => 0xe3 | retf => 0xe4 | jumpf => 0xe5 | dupn => 0xe6 | swapn => 0xe7 | exchange => 0xe8
  | eofcreate => 0xec | returncontract => 0xee | returndataload => 0xf7 | extcall => 0xf8
  | extdelegatecall => 0xf9 | extstaticcall => 0xfb
  | push n => .ofNat (0x5f + n)
  | dup n => .ofNat (0x7f + n)
  | swap n => .ofNat (0x8f + n)
  | unknown b => b

def ofByte (b : UInt8) : Opcode :=
  if 0x60 ≤ b ∧ b ≤ 0x7f then push (b.toNat - 0x5f)
  else if 0x80 ≤ b ∧ b ≤ 0x8f then dup (b.toNat - 0x7f)
  else if 0x90 ≤ b ∧ b ≤ 0x9f then swap (b.toNat - 0x8f)
  else (named.find? (·.toByte = b)).getD (unknown b)

def name : Opcode → String
  | stop => "STOP" | add => "ADD" | mul => "MUL" | sub => "SUB" | div => "DIV" | sdiv => "SDIV"
  | mod => "MOD" | smod => "SMOD" | addmod => "ADDMOD" | mulmod => "MULMOD" | exp => "EXP"
  | signextend => "SIGNEXTEND" | lt => "LT" | gt => "GT" | slt => "SLT" | sgt => "SGT"
  | eq => "EQ" | iszero => "ISZERO" | and => "AND" | or => "OR" | xor => "XOR" | not => "NOT"
  | byte => "BYTE" | shl => "SHL" | shr => "SHR" | sar => "SAR" | keccak256 => "KECCAK256"
  | address => "ADDRESS" | balance => "BALANCE" | origin => "ORIGIN" | caller => "CALLER"
  | callvalue => "CALLVALUE" | calldataload => "CALLDATALOAD" | calldatasize => "CALLDATASIZE"
  | calldatacopy => "CALLDATACOPY" | codesize => "CODESIZE" | codecopy => "CODECOPY"
  | gasprice => "GASPRICE" | extcodesize => "EXTCODESIZE" | extcodecopy => "EXTCODECOPY"
  | returndatasize => "RETURNDATASIZE" | returndatacopy => "RETURNDATACOPY"
  | extcodehash => "EXTCODEHASH" | blockhash => "BLOCKHASH" | coinbase => "COINBASE"
  | timestamp => "TIMESTAMP" | number => "NUMBER" | difficulty => "DIFFICULTY"
  | gaslimit => "GASLIMIT" | chainid => "CHAINID" | selfbalance => "SELFBALANCE"
  | basefee => "BASEFEE" | blobhash => "BLOBHASH" | blobbasefee => "BLOBBASEFEE" | pop => "POP"
  | mload => "MLOAD" | mstore => "MSTORE" | mstore8 => "MSTORE8" | sload => "SLOAD"
  | sstore => "SSTORE" | jump => "JUMP" | jumpi => "JUMPI" | pc => "PC" | msize => "MSIZE"
  | gas => "GAS" | jumpdest => "JUMPDEST" | tload => "TLOAD" | tstore => "TSTORE"
  | mcopy => "MCOPY" | push0 => "PUSH0" | log0 => "LOG0" | log1 => "LOG1" | log2 => "LOG2"
  | log3 => "LOG3" | log4 => "LOG4" | create => "CREATE" | call => "CALL" | callcode => "CALLCODE"
  | ret => "RETURN" | delegatecall => "DELEGATECALL" | create2 => "CREATE2"
  | staticcall => "STATICCALL" | revert => "REVERT" | invalid => "INVALID"
  | selfdestruct => "SELFDESTRUCT" | clz => "CLZ" | dataload => "DATALOAD"
  | dataloadn => "DATALOADN" | datasize => "DATASIZE" | datacopy => "DATACOPY" | rjump => "RJUMP"
  | rjumpi => "RJUMPI" | rjumpv => "RJUMPV" | callf => "CALLF" | retf => "RETF" | jumpf => "JUMPF"
  | dupn => "DUPN" | swapn => "SWAPN" | exchange => "EXCHANGE" | eofcreate => "EOFCREATE"
  | returncontract => "RETURNCONTRACT" | returndataload => "RETURNDATALOAD" | extcall => "EXTCALL"
  | extdelegatecall => "EXTDELEGATECALL" | extstaticcall => "EXTSTATICCALL"
  | push n => "PUSH" ++ Numeral.decimal n
  | dup n => "DUP" ++ Numeral.decimal n
  | swap n => "SWAP" ++ Numeral.decimal n
  | unknown b => "UNKNOWN(0x" ++ Numeral.hexByte b ++ ")"

-- How many words an operation takes from the stack and how many it puts there, for the operations
-- that the fork executes.
def effect : Opcode → Option (Nat × Nat)
  | stop | jumpdest | invalid
    => some (0, 0)
  | address | origin | caller | callvalue | calldatasize | codesize | gasprice | returndatasize
  | coinbase | timestamp | number | difficulty | gaslimit | chainid | selfbalance | basefee
  | blobbasefee | pc | msize | gas | push0
    => some (0, 1)
  | pop | jump | selfdestruct
    => some (1, 0)
  | iszero | not | balance | calldataload | extcodesize | extcodehash | blockhash | blobhash
  | mload | sload | tload
    => some (1, 1)
  | mstore | mstore8 | sstore | jumpi | tstore | log0 | ret | revert
    => some (2, 0)
  | add | mul | sub | div | sdiv | mod | smod | exp | signextend | lt | gt | slt | sgt | eq | and
  | or | xor | byte | shl | shr | sar | keccak256
    => some (2, 1)
  | calldatacopy | codecopy | returndatacopy | mcopy | log1
    => some (3, 0)
  | addmod | mulmod | create
    => some (3, 1)
  | extcodecopy | log2
    => some (4, 0)
  | create2
    => some (4, 1)
  | log3
    => some (5, 0)
  | log4
    => some (6, 0)
  | delegatecall | staticcall
    => some (6, 1)
  | call | callcode
    => some (7, 1)
  | dup n => some (n, n + 1)
  | swap n => some (n + 1, n + 1)
  | push _ => some (0, 1)
  | _ => none

def isDefined (op : Opcode) : Bool :=
  op.effect.isSome

def inputs (op : Opcode) : Nat :=
  (op.effect.getD (0, 0)).1

def outputs (op : Opcode) : Nat :=
  (op.effect.getD (0, 0)).2

def delta (op : Opcode) : Int :=
  op.outputs - op.inputs

def width : Opcode → Nat
  | push n => n
  | _ => 0

def isPush : Opcode → Bool
  | push0 | push _ => true
  | _ => false

def isJump : Opcode → Bool
  | jump | jumpi => true
  | _ => false

def isTerminal : Opcode → Bool
  | stop | ret | revert | selfdestruct | invalid => true
  | op => !op.isDefined

theorem ofNat_add_sub {b : UInt8} {n : Nat} (h : n ≤ b.toNat) :
    UInt8.ofNat (n + (b.toNat - n)) = b := by
  rw [Nat.add_sub_cancel' h, UInt8.ofNat_toNat]

theorem toByte_ofByte (b : UInt8) : (ofByte b).toByte = b := by
  simp only [ofByte, UInt8.le_iff_toNat_le]
  split
  case isTrue h => exact ofNat_add_sub (Nat.le_trans (by decide) h.1)
  split
  case isTrue h => exact ofNat_add_sub (Nat.le_trans (by decide) h.1)
  split
  case isTrue h => exact ofNat_add_sub (Nat.le_trans (by decide) h.1)
  cases h : named.find? (·.toByte = b) with
  | none => rfl
  | some op => simpa using List.find?_some h

theorem not_isJump_of_isPush {op : Opcode} (h : op.isPush) : op.isJump = false := by
  cases op <;> simp_all [isPush, isJump]

end Opcode
end Splice
