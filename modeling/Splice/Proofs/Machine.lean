import Mathlib.Algebra.Group.Nat.Defs
import Mathlib.Data.List.Basic
import Splice.Proofs.Step

namespace Splice

namespace Word

theorem ofNat_square_pow (base : Word) (n : Nat) :
    BitVec.ofNat 256 ((base * base).toNat ^ n) = .ofNat 256 (base.toNat ^ (2 * n)) := by
  apply BitVec.eq_of_toNat_eq
  simp only [BitVec.toNat_ofNat, BitVec.toNat_mul]
  rw [← Nat.pow_mod, Nat.pow_mul, Nat.pow_two]

theorem power_eq (base : Word) (n : Nat) : power base n = .ofNat 256 (base.toNat ^ n) := by
  induction n using Nat.strongRecOn generalizing base with
  | ind n ih =>
    rw [power]
    split
    case isTrue h => simp [h]
    case isFalse h =>
      rw [ih (n / 2) (by omega), ofNat_square_pow]
      dsimp only
      split
      case isTrue heven => rw [show 2 * (n / 2) = n by omega]
      case isFalse hodd =>
        have hn : base.toNat ^ n = base.toNat * base.toNat ^ (2 * (n / 2)) := by
          rw [← Nat.pow_succ']
          congr 1
          omega
        apply BitVec.eq_of_toNat_eq
        simp [hn, BitVec.toNat_mul]

theorem signedLess_eq (a b : Word) : signedLess a b = BitVec.slt a b := by
  rw [BitVec.slt_eq_ult]
  change signedLess a b = ((a.msb != b.msb) ^^ decide (a < b))
  have hlt : a.msb ≠ b.msb → (a < b ↔ a.msb = false) := by
    simp only [BitVec.msb_eq_decide, BitVec.lt_def, ne_eq, decide_eq_decide,
      decide_eq_false_iff_not]
    omega
  cases ha : a.msb <;> cases hb : b.msb <;> simp_all [signedLess]

section

variable (a b : Word)

@[simp]
theorem divide_zero : divide a 0#256 = 0#256 := by
  simp [divide]

@[simp]
theorem signedDivide_zero : signedDivide a 0#256 = 0#256 := by
  simp [signedDivide]

@[simp]
theorem remainder_zero : remainder a 0#256 = 0#256 := by
  simp [remainder]

@[simp]
theorem signedRemainder_zero : signedRemainder a 0#256 = 0#256 := by
  simp [signedRemainder]

@[simp]
theorem addMod_zero : addMod a b 0#256 = 0#256 := by
  simp [addMod]

@[simp]
theorem mulMod_zero : mulMod a b 0#256 = 0#256 := by
  simp [mulMod]

variable {a}

theorem byteAt_of_le (h : 32 ≤ a) : byteAt a b = 0#256 :=
  if_neg (BitVec.not_lt.mpr h)

theorem shiftLeft_of_le (h : 256 ≤ a) : shiftLeft a b = 0#256 :=
  if_neg (BitVec.not_lt.mpr h)

theorem shiftRight_of_le (h : 256 ≤ a) : shiftRight a b = 0#256 :=
  if_neg (BitVec.not_lt.mpr h)

end

end Word

theorem Fold.shortcut_eq_some_iff {settled : Bool} {result w : Word} {otherwise : Option Word} :
    shortcut settled result otherwise = some w ↔
      (settled ∧ result = w) ∨ (settled = false ∧ otherwise = some w) := by
  cases settled <;> simp [shortcut]

theorem Fold.binary_eq_some_iff {f : Word → Word → Word} {a b : Option Word} {w : Word} :
    binary f a b = some w ↔ ∃ x y, a = some x ∧ b = some y ∧ f x y = w := by
  simp [binary, Option.bind_eq_some_iff]

def Opcode.isOrdinary : Opcode → Bool
  | push0 | push _ | dup _ | swap _ | jump | jumpi => false
  | _ => true

theorem Opcode.isOrdinary_of_isPlain {op : Opcode} (h : op.isPlain) : op.isOrdinary := by
  cases op <;> simp_all [isPlain, isOrdinary]

theorem Opcode.not_isJump_of_isOrdinary {op : Opcode} (h : op.isOrdinary) : op.isJump = false := by
  cases op <;> simp_all [isOrdinary, isJump]

theorem Opcode.eq_of_not_isOrdinary {op : Opcode} (h : ¬op.isOrdinary) :
    op.isPush ∨ (∃ n, op = .dup n) ∨ (∃ n, op = .swap n) ∨ op = .jump ∨ op = .jumpi := by
  cases op <;> simp_all [isPush, isOrdinary]

@[simp]
theorem Opcode.inputs_jumpdest : jumpdest.inputs = 0 :=
  rfl

@[simp]
theorem Opcode.inputs_jump : jump.inputs = 1 :=
  rfl

@[simp]
theorem Opcode.inputs_jumpi : jumpi.inputs = 2 :=
  rfl

@[simp]
theorem Opcode.inputs_codecopy : codecopy.inputs = 3 :=
  rfl

@[simp]
theorem Opcode.outputs_jumpdest : jumpdest.outputs = 0 :=
  rfl

@[simp]
theorem Opcode.outputs_codecopy : codecopy.outputs = 0 :=
  rfl

def Opcode.isFolded : Opcode → Bool
  | add | mul | sub | div | sdiv | mod | smod | addmod | mulmod | exp | signextend | lt | gt | slt
  | sgt | eq | iszero | and | or | xor | not | byte | shl | shr | sar => true
  | _ => false

namespace Machine

def compute : Opcode → List Word → Option Word
  | .add, [a, b] => some (a + b)
  | .mul, [a, b] => some (a * b)
  | .sub, [a, b] => some (a - b)
  | .div, [a, b] => some (Word.divide a b)
  | .sdiv, [a, b] => some (Word.signedDivide a b)
  | .mod, [a, b] => some (Word.remainder a b)
  | .smod, [a, b] => some (Word.signedRemainder a b)
  | .addmod, [a, b, n] => some (Word.addMod a b n)
  | .mulmod, [a, b, n] => some (Word.mulMod a b n)
  | .exp, [a, b] => some (.ofNat 256 (a.toNat ^ b.toNat))
  | .signextend, [a, b] => some (Word.extendSign a b)
  | .lt, [a, b] => some (Word.flag (a < b))
  | .gt, [a, b] => some (Word.flag (b < a))
  | .slt, [a, b] => some (Word.flag (BitVec.slt a b))
  | .sgt, [a, b] => some (Word.flag (BitVec.slt b a))
  | .eq, [a, b] => some (Word.flag (a = b))
  | .iszero, [a] => some (Word.flag (a = 0))
  | .and, [a, b] => some (a &&& b)
  | .or, [a, b] => some (a ||| b)
  | .xor, [a, b] => some (a ^^^ b)
  | .not, [a] => some (~~~a)
  | .byte, [a, b] => some (Word.byteAt a b)
  | .shl, [a, b] => some (Word.shiftLeft a b)
  | .shr, [a, b] => some (Word.shiftRight a b)
  | .sar, [a, b] => some (Word.shiftRightSigned a b)
  | _, _ => none

theorem compute_of_not_isFolded {op : Opcode} (h : op.isFolded = false) (words : List Word) :
    compute op words = none := by
  cases op <;> first | rfl | simp [Opcode.isFolded] at h

theorem eq_power_of_exponential {x y w : Word} {base exponent : Option Word}
    (h : Fold.exponential base exponent = .ok (some w)) (hx : ∀ v, base = some v → x = v)
    (hy : ∀ v, exponent = some v → y = v) : BitVec.ofNat 256 (x.toNat ^ y.toNat) = w := by
  cases exponent with
  | none => simp [Fold.exponential] at h
  | some e =>
    obtain rfl := hy e rfl
    simp only [Fold.exponential] at h
    split at h
    case isTrue hz =>
      cases h
      simp [hz]
    case isFalse hz =>
      split at h
      case isFalse => simp at h
      case isTrue =>
        obtain ⟨u, rfl, rfl⟩ := Option.map_eq_some_iff.mp (Except.ok.inj h)
        obtain rfl := hx u rfl
        have hz : y.toNat ≠ 0 := fun h => hz (BitVec.eq_of_toNat_eq h)
        split
        case isTrue hu => simp [hu, Nat.zero_pow (Nat.pos_of_ne_zero hz)]
        case isFalse => simp [Word.power_eq]

section

variable {op : Opcode} {arg : Nat → Option Word} {words : List Word} {w : Word}
  (ha : ∀ i v, arg i = some v → words[i]? = some v)

include ha

theorem exists_operands_two (hl : words.length = 2) :
    ∃ x y, words = [x, y] ∧ (∀ v, arg 0 = some v → x = v) ∧ ∀ v, arg 1 = some v → y = v := by
  obtain ⟨x, y, rfl⟩ := List.length_eq_two.mp hl
  exact ⟨x, y, rfl, by simpa using ha 0, by simpa using ha 1⟩

theorem exists_operands_three (hl : words.length = 3) :
    ∃ x y z, words = [x, y, z] ∧ (∀ v, arg 0 = some v → x = v) ∧
      (∀ v, arg 1 = some v → y = v) ∧ ∀ v, arg 2 = some v → z = v := by
  obtain ⟨x, y, z, rfl⟩ := List.length_eq_three.mp hl
  exact ⟨x, y, z, rfl, by simpa using ha 0, by simpa using ha 1, by simpa using ha 2⟩

theorem compute_of_word? (h : Fold.word? op arg = .ok (some w)) (hl : words.length = op.inputs) :
    compute op words = some w := by
  simp only [Fold.word?] at h
  cases op with
  | iszero | not =>
    obtain ⟨x, rfl⟩ := List.length_eq_one_iff.mp hl
    obtain ⟨u, hu, rfl⟩ := Option.map_eq_some_iff.mp (Except.ok.inj h)
    have hx : x = u := by simpa using ha 0 u hu
    simp [compute, hx]
  | addmod | mulmod =>
    obtain ⟨x, y, z, rfl, hx, hy, hz⟩ := exists_operands_three ha hl
    rcases Fold.shortcut_eq_some_iff.mp (Except.ok.inj h) with ⟨hs, rfl⟩ | ⟨-, h⟩
    case inl => simp [compute, hz 0 (of_decide_eq_true hs)]
    case inr =>
      have ⟨m, hm, h⟩ := Option.bind_eq_some_iff.mp h
      obtain ⟨u, v, hu, hv, rfl⟩ := Fold.binary_eq_some_iff.mp h
      simp [compute, hx u hu, hy v hv, hz m hm]
  | add | mul | sub | signextend | lt | gt | slt | sgt | eq | and | or | xor | sar =>
    obtain ⟨x, y, rfl, hx, hy⟩ := exists_operands_two ha hl
    obtain ⟨u, v, hu, hv, rfl⟩ := Fold.binary_eq_some_iff.mp (Except.ok.inj h)
    simp [compute, hx u hu, hy v hv, Word.signedLess_eq]
  | div | sdiv | mod | smod =>
    obtain ⟨x, y, rfl, hx, hy⟩ := exists_operands_two ha hl
    rcases Fold.shortcut_eq_some_iff.mp (Except.ok.inj h) with ⟨hs, rfl⟩ | ⟨-, h⟩
    case inl => simp [compute, hy 0 (of_decide_eq_true hs)]
    case inr =>
      obtain ⟨u, v, hu, hv, rfl⟩ := Fold.binary_eq_some_iff.mp h
      simp [compute, hx u hu, hy v hv]
  | byte | shl | shr =>
    obtain ⟨x, y, rfl, hx, hy⟩ := exists_operands_two ha hl
    rcases Fold.shortcut_eq_some_iff.mp (Except.ok.inj h) with ⟨hs, rfl⟩ | ⟨-, h⟩
    case inl =>
      have ⟨v, hv, hle⟩ := (Option.any_eq_true _ _).mp hs
      obtain rfl := hx v hv
      have hle := of_decide_eq_true hle
      first
        | exact congrArg some (Word.byteAt_of_le y hle)
        | exact congrArg some (Word.shiftLeft_of_le y hle)
        | exact congrArg some (Word.shiftRight_of_le y hle)
    case inr =>
      obtain ⟨u, v, hu, hv, rfl⟩ := Fold.binary_eq_some_iff.mp h
      simp [compute, hx u hu, hy v hv]
  | exp =>
    obtain ⟨x, y, rfl, hx, hy⟩ := exists_operands_two ha hl
    exact congrArg some (eq_power_of_exponential h hx hy)
  | _ => simp at h

end

-- A word on the stack, the push that it comes from if it was never anything but moved and copied
-- since, and whether it was copied.
structure Slot where
  word : Word
  origin : Option Nat
  copied : Bool
  deriving DecidableEq

def Slot.copy (c : Slot) : Slot :=
  { c with copied := true }

inductive Fault
  | underflow
  | overflow
  | badJump
  deriving DecidableEq

inductive Status
  | running (pc : Nat)
  | halted
  | failed (fault : Fault)
  deriving DecidableEq

structure State where
  slots : List Slot
  status : Status
  deriving DecidableEq

def limit : Nat := 1024

def grow (c : Slot) (slots : List Slot) : Except Fault (List Slot) :=
  if slots.length < limit then .ok (c :: slots) else .error .overflow

def land (p : Program) (target : Word) : Except Fault Nat :=
  if p.isJumpdest target.toNat then .ok target.toNat else .error .badJump

-- The stack behind an instruction, and the pc of the next one. Where the operands do not settle the
-- result of an operation, `answer` does.
def execute (p : Program) (answer : Word) (ins : Instruction) (slots : List Slot) :
    Except Fault (List Slot × Nat) :=
  match ins.op, slots with
  | .push0, _ | .push _, _ =>
    (grow ⟨.ofBytes ins.immediate, some ins.pc, false⟩ slots).map (·, ins.next)
  | .dup n, _ =>
    match slots[n - 1]? with
    | some c => (grow c.copy (slots.set (n - 1) c.copy)).map (·, ins.next)
    | none => .error .underflow
  | .swap n, _ =>
    match slots[0]?, slots[n]? with
    | some top, some below => .ok ((slots.set 0 below).set n top, ins.next)
    | _, _ => .error .underflow
  | .jump, target :: rest => (land p target.word).map (rest, ·)
  | .jumpi, target :: condition :: rest =>
    if condition.word = 0 then .ok (rest, ins.next) else (land p target.word).map (rest, ·)
  | op, _ =>
    if slots.length < op.inputs then .error .underflow
    else if op.outputs = 1 then
      let word := (compute op ((slots.take op.inputs).map (·.word))).getD answer
      (grow ⟨word, none, false⟩ (slots.drop op.inputs)).map (·, ins.next)
    else .ok (slots.drop op.inputs, ins.next)

def goOn (p : Program) (pc : Nat) : Status :=
  if (p.atPc? pc).isSome then .running pc else .halted

def step (p : Program) (answer : Word) (s : State) : State :=
  match s.status with
  | .running pc =>
    match p.atPc? pc with
    | none => { s with status := .halted }
    | some ins =>
      match execute p answer ins s.slots with
      | .error fault => { s with status := .failed fault }
      | .ok (slots, next) => ⟨slots, if ins.op.isTerminal then .halted else goOn p next⟩
  | _ => s

-- The state after a number of steps from the pc `start` on, with an answer for each of them.
def run (p : Program) (oracle : Nat → Word) (start : Nat) : Nat → State
  | 0 => ⟨[], goOn p start⟩
  | n + 1 => step p (oracle n) (run p oracle start n)

variable {p : Program} {answer : Word} {ins : Instruction}

inductive Executes (p : Program) (answer : Word) (ins : Instruction) :
    List Slot → List Slot → Nat → Prop
  | push {slots} (h : ins.op.isPush) (room : slots.length < limit) :
    Executes p answer ins slots
      (⟨.ofBytes ins.immediate, some ins.pc, false⟩ :: slots) ins.next
  | dup {slots n c} (h : ins.op = .dup n) (source : slots[n - 1]? = some c)
      (room : slots.length < limit) :
    Executes p answer ins slots (c.copy :: slots.set (n - 1) c.copy) ins.next
  | swap {slots n top below} (h : ins.op = .swap n) (first : slots[0]? = some top)
      (second : slots[n]? = some below) :
    Executes p answer ins slots ((slots.set 0 below).set n top) ins.next
  | jump {target rest} (h : ins.op = .jump) (valid : p.isJumpdest target.word.toNat) :
    Executes p answer ins (target :: rest) rest target.word.toNat
  | take {target condition rest} (h : ins.op = .jumpi) (holds : condition.word ≠ 0)
      (valid : p.isJumpdest target.word.toNat) :
    Executes p answer ins (target :: condition :: rest) rest target.word.toNat
  | pass {target condition rest} (h : ins.op = .jumpi) (fails : condition.word = 0) :
    Executes p answer ins (target :: condition :: rest) rest ins.next
  | compute {slots} (h : ins.op.isOrdinary) (inputs : ins.op.inputs ≤ slots.length)
      (outputs : ins.op.outputs = 1) (room : (slots.drop ins.op.inputs).length < limit) :
    Executes p answer ins slots
      (⟨(Machine.compute ins.op ((slots.take ins.op.inputs).map (·.word))).getD answer, none, false⟩
        :: slots.drop ins.op.inputs) ins.next
  | consume {slots} (h : ins.op.isOrdinary) (inputs : ins.op.inputs ≤ slots.length)
      (outputs : ins.op.outputs ≠ 1) :
    Executes p answer ins slots (slots.drop ins.op.inputs) ins.next

theorem grow_eq_ok_iff {c : Slot} {slots slots' : List Slot} {next next' : Nat} :
    (grow c slots).map (·, next) = .ok (slots', next') ↔
      slots.length < limit ∧ c :: slots = slots' ∧ next = next' := by
  by_cases h : slots.length < limit <;> simp [grow, h, Except.map]

theorem land_eq_ok_iff {target : Word} {rest slots' : List Slot} {next : Nat} :
    (land p target).map (rest, ·) = .ok (slots', next) ↔
      p.isJumpdest target.toNat ∧ rest = slots' ∧ target.toNat = next := by
  by_cases h : p.isJumpdest target.toNat <;> simp [land, h, Except.map]

theorem execute_of_isOrdinary (h : ins.op.isOrdinary) (slots : List Slot) :
    execute p answer ins slots =
      if slots.length < ins.op.inputs then .error .underflow
      else if ins.op.outputs = 1 then
        (grow ⟨(compute ins.op ((slots.take ins.op.inputs).map (·.word))).getD answer, none, false⟩
          (slots.drop ins.op.inputs)).map (·, ins.next)
      else .ok (slots.drop ins.op.inputs, ins.next) := by
  simp only [execute]
  split <;> simp_all [Opcode.isOrdinary]

theorem execute_of_isPush (h : ins.op.isPush) (slots : List Slot) :
    execute p answer ins slots =
      (grow ⟨.ofBytes ins.immediate, some ins.pc, false⟩ slots).map (·, ins.next) := by
  simp only [execute]
  split <;> simp_all [Opcode.isPush]

theorem executes_of_execute {slots slots' : List Slot} {next : Nat}
    (h : execute p answer ins slots = .ok (slots', next)) :
    Executes p answer ins slots slots' next := by
  by_cases ho : ins.op.isOrdinary
  case pos =>
    rw [execute_of_isOrdinary ho] at h
    split at h
    case isTrue => simp at h
    case isFalse inputs =>
      have inputs := Nat.not_lt.mp inputs
      split at h
      case isTrue outputs =>
        obtain ⟨room, rfl, rfl⟩ := grow_eq_ok_iff.mp h
        exact .compute ho inputs outputs room
      case isFalse outputs =>
        cases h
        exact .consume ho inputs outputs
  case neg =>
    obtain hop | ⟨n, hop⟩ | ⟨n, hop⟩ | hop | hop := Opcode.eq_of_not_isOrdinary ho
    · rw [execute_of_isPush hop] at h
      obtain ⟨room, rfl, rfl⟩ := grow_eq_ok_iff.mp h
      exact .push hop room
    · simp only [execute, hop] at h
      split at h
      case h_1 c source =>
        obtain ⟨room, rfl, rfl⟩ := grow_eq_ok_iff.mp h
        exact .dup hop source (by simpa using room)
      case h_2 => simp at h
    · simp only [execute, hop] at h
      split at h
      case h_1 top below first second =>
        cases h
        exact .swap hop first second
      case h_2 => simp at h
    · match slots with
      | [] => simp [execute, hop] at h
      | target :: rest =>
        simp only [execute, hop] at h
        obtain ⟨valid, rfl, rfl⟩ := land_eq_ok_iff.mp h
        exact .jump hop valid
    · match slots with
      | [] | [_] => simp [execute, hop] at h
      | target :: condition :: rest =>
        simp only [execute, hop] at h
        split at h
        case isTrue fails =>
          cases h
          exact .pass hop fails
        case isFalse holds =>
          obtain ⟨valid, rfl, rfl⟩ := land_eq_ok_iff.mp h
          exact .take hop holds valid

theorem execute_of_executes {slots slots' : List Slot} {next : Nat}
    (h : Executes p answer ins slots slots' next) :
    execute p answer ins slots = .ok (slots', next) := by
  cases h with
  | push h room => exact (execute_of_isPush h _).trans (grow_eq_ok_iff.mpr ⟨room, rfl, rfl⟩)
  | dup h source room => simp [execute, h, source, grow, room, Except.map]
  | swap h first second => simp [execute, h, first, second]
  | jump h valid => simp [execute, h, land, valid, Except.map]
  | take h holds valid =>
    simp only [execute, h, if_neg holds]
    exact land_eq_ok_iff.mpr ⟨valid, rfl, rfl⟩
  | pass h fails => simp [execute, h, fails]
  | compute h inputs outputs room =>
    rw [execute_of_isOrdinary h, if_neg (Nat.not_lt.mpr inputs), if_pos outputs]
    exact grow_eq_ok_iff.mpr ⟨room, rfl, rfl⟩
  | consume h inputs outputs =>
    rw [execute_of_isOrdinary h, if_neg (Nat.not_lt.mpr inputs), if_neg outputs]

theorem Executes.length_le {slots slots' : List Slot} {next : Nat}
    (h : Executes p answer ins slots slots' next) (hl : slots.length ≤ limit) :
    slots'.length ≤ limit := by
  cases h with
  | push _ room => exact room
  | dup _ _ room => simpa using Nat.succ_le_of_lt room
  | swap => simpa using hl
  | jump => exact Nat.le_of_succ_le hl
  | take | pass => exact Nat.le_of_succ_le (Nat.le_of_succ_le hl)
  | compute _ _ _ room => exact room
  | consume =>
    rw [List.length_drop]
    omega

section

variable {s : State}

theorem step_of_halted (h : s.status = .halted) : step p answer s = s := by
  simp [step, h]

theorem step_of_executes {pc next : Nat} {slots : List Slot} (hs : s.status = .running pc)
    (hi : p.atPc? pc = some ins) (h : Executes p answer ins s.slots slots next) :
    step p answer s = ⟨slots, if ins.op.isTerminal then .halted else goOn p next⟩ := by
  simp [step, hs, hi, execute_of_executes h]

theorem executes_of_step {pc : Nat} (hs : s.status = .running pc) (hi : p.atPc? pc = some ins)
    (h : ∀ fault, (step p answer s).status ≠ .failed fault) :
    ∃ out next, Executes p answer ins s.slots out next := by
  cases he : execute p answer ins s.slots with
  | error fault => exact absurd (by simp [step, hs, hi, he]) (h fault)
  | ok r => exact ⟨r.1, r.2, executes_of_execute he⟩

theorem executes_of_running {pc : Nat}
    (h : (step p answer s).status = .running pc) :
    ∃ ins pc', s.status = .running pc' ∧ p.atPc? pc' = some ins ∧
      Executes p answer ins s.slots (step p answer s).slots pc := by
  cases hst : s.status with
  | halted => simp [step, hst] at h
  | failed => simp [step, hst] at h
  | running pc' =>
    cases hins : p.atPc? pc' with
    | none => simp [step, hst, hins] at h
    | some ins =>
      have hfault : ∀ fault, (step p answer s).status ≠ .failed fault := by simp [h]
      obtain ⟨out, next, hexec⟩ := executes_of_step hst hins hfault
      rw [step_of_executes hst hins hexec] at h ⊢
      dsimp only [goOn] at h
      split at h
      case isTrue => cases h
      case isFalse =>
        split at h
        case isTrue =>
          cases h
          exact ⟨ins, pc', rfl, hins, hexec⟩
        case isFalse => cases h

theorem length_step_le (h : s.slots.length ≤ limit) : (step p answer s).slots.length ≤ limit := by
  simp only [step]
  split
  case h_2 => exact h
  case h_1 =>
    split
    case h_1 => exact h
    case h_2 =>
      split
      case h_1 => exact h
      case h_2 he => exact (executes_of_execute he).length_le h

end

theorem length_run_le (oracle : Nat → Word) (start n : Nat) :
    (run p oracle start n).slots.length ≤ limit := by
  induction n with
  | zero => exact Nat.zero_le _
  | succ n ih => exact length_step_le ih

end Machine
end Splice
