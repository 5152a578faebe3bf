import Splice.Proofs.Guarded
import Splice.Proofs.Layout
import Splice.Injection

namespace Splice

def Guarded.bufferLimit : Nat := 2 ^ 63

-- A program whose places are offsets into a buffer and whose operations are those of bytes.
structure Program.Sized (p : Program) : Prop where
  tiled : p.Tiled
  pcs   : ∀ ins ∈ p.instructions, ins.pc < Guarded.bufferLimit
  ops   : ∀ ins ∈ p.instructions, ∃ b, ins.op = .ofByte b
  size  : p.size < Guarded.bufferLimit

namespace Program

theorem length_decodeFrom_le (pc : Nat) (code : List UInt8) :
    (decodeFrom pc code).length ≤ code.length := by
  induction pc, code using decodeFrom_induction with
  | nil pc => simp
  | cons pc b rest ih =>
    rw [decodeFrom_eq_read_cons, List.length_cons, List.length_cons]
    rw [List.length_drop] at ih
    omega

theorem sized_decode {code : List UInt8} (h : code.length < Guarded.bufferLimit) :
    (decode code).Sized where
  tiled := tiled_decode code
  pcs ins hm := by
    have := pc_lt_of_mem_decodeFrom hm
    omega
  ops ins hm := exists_ofByte_of_mem_decodeFrom hm
  size := Nat.lt_of_le_of_lt (length_decodeFrom_le 0 code) h

theorem Sized.width_le {p : Program} (h : p.Sized) {ins : Instruction}
    (hm : ins ∈ p.instructions) : ins.op.width ≤ 32 := by
  obtain ⟨b, hb⟩ := h.ops ins hm
  exact hb ▸ Opcode.width_ofByte_le b

end Program

namespace Guarded

def immediateAt (code : List UInt8) (pc : Nat) (op : Opcode) : Guarded (Option (List UInt8)) :=
  if op.width = 0 then
    pure none
  else do
    let start ← add pc 1
    let stop ← add start op.width
    let bytes ← slice code start (min stop code.length)
    return some bytes

def decodeFrom (code : List UInt8) : (rounds pc : Nat) → Guarded (List Instruction)
  | 0, _ => pure []
  | rounds + 1, pc =>
    if pc < code.length then do
      let b ← index code pc
      let op := Opcode.ofByte b
      let imm ← immediateAt code pc op
      let size ← add 1 (imm.getD []).length
      let next ← add pc size
      let rest ← decodeFrom code rounds next
      return ⟨pc, op, imm⟩ :: rest
    else
      pure []

def decode (code : List UInt8) : Guarded Program := do
  return ⟨← decodeFrom code code.length 0⟩

def atPc? (p : Program) (pc : Nat) : Guarded (Option Instruction) :=
  match p.indexOf? pc with
  | none => pure none
  | some i => do
    let ins ← index p.instructions i
    return some ins

def isJumpdest (p : Program) (pc : Nat) : Guarded Bool := do
  return (← atPc? p pc).any (·.op = .jumpdest)

def immediate (ins : Instruction) : Guarded (List UInt8) :=
  let word := List.replicate ins.op.width 0
  match ins.imm with
  | none => pure word
  | some imm => do
    let n := min imm.length ins.op.width
    let given ← slice imm 0 n
    write word 0 n given

def offset? (ins : Instruction) : Guarded (Option Nat) := do
  return (BigEndian.offset? (← immediate ins)).map (·.toNat)

def withoutMetadata (deployed : List UInt8) (suffix : Nat) : Guarded (List UInt8) :=
  if suffix ≤ deployed.length then do
    let stop ← sub deployed.length suffix
    slice deployed 0 stop
  else
    throw (.metadataTooShort deployed.length suffix)

def firstWindow? : List Instruction → Option (List Instruction)
  | [] => none
  | ins :: rest =>
    if (Layout.epilogue? (ins :: rest)).isSome then some ((ins :: rest).take 7)
    else firstWindow? rest

def locate (init deployed : List UInt8) : Guarded Layout := do
  let program ← decode init
  match firstWindow? program.instructions with
  | none => throw .missingEpilogue
  | some window =>
    let length ← index window 0
    let offset ← index window 2
    match (← offset? offset).filter (· ≤ init.length) with
    | none => throw (.runtimeMismatch init.length deployed.length 0)
    | some runtimeOffset =>
      let runtimeLength := (← offset? length).getD (usize - 1)
      let payload ← slice init runtimeOffset init.length
      if payload = deployed then
        return ⟨length.pc, runtimeLength, offset.pc, runtimeOffset⟩
      else
        throw (.runtimeMismatch runtimeOffset deployed.length payload.length)

section

variable {code : List UInt8} {pc : Nat} {b : UInt8} {rest : List UInt8}

theorem immediateAt_eq (h : code.length < bufferLimit) (hdrop : code.drop pc = b :: rest) :
    immediateAt code pc (.ofByte b) = pure (Program.read pc b rest).imm := by
  have hw := Opcode.width_ofByte_le b
  have hlen : code.length = pc + 1 + rest.length := by
    have := congrArg List.length hdrop
    rw [List.length_drop, List.length_cons] at this
    omega
  have hrest : code.drop (pc + 1) = rest := by
    rw [← List.drop_drop, hdrop, List.drop_succ_cons, List.drop_zero]
  simp only [immediateAt, Program.read]
  split
  case isTrue => rfl
  case isFalse =>
    have husize : bufferLimit + 64 < usize := by decide
    rw [add_eq (by omega), pure_bind, add_eq (by omega), pure_bind,
      slice_eq (by omega) (Nat.min_le_right ..), pure_bind, List.drop_take, hrest]
    rcases Nat.le_total (Opcode.ofByte b).width rest.length with hle | hle
    case inl =>
      have : min (pc + 1 + (Opcode.ofByte b).width) code.length - (pc + 1) =
          (Opcode.ofByte b).width := by omega
      rw [this]
    case inr => rw [List.take_of_length_le (by omega), List.take_of_length_le hle]

theorem decodeFrom_next (hdrop : code.drop pc = b :: rest) :
    Program.decodeFrom (pc + (1 + ((Program.read pc b rest).imm.getD []).length))
        (code.drop (pc + (1 + ((Program.read pc b rest).imm.getD []).length))) =
      Program.decodeFrom (Program.read pc b rest).next (rest.drop (Opcode.ofByte b).width) := by
  rw [← List.drop_drop, hdrop, Nat.add_comm 1, List.drop_succ_cons, Program.getD_imm_read,
    List.length_take]
  rcases Nat.le_total (Opcode.ofByte b).width rest.length with hle | hle
  case inl =>
    rw [Nat.min_eq_left hle]
    congr 1
    simp only [Instruction.next, Program.read]
    omega
  case inr =>
    rw [Nat.min_eq_right hle, List.drop_length, List.drop_eq_nil_of_le hle,
      Program.decodeFrom_nil, Program.decodeFrom_nil]

end

theorem decodeFrom_eq {code : List UInt8} (h : code.length < bufferLimit) {rounds pc : Nat}
    (hr : code.length ≤ pc + rounds) :
    decodeFrom code rounds pc = pure (Program.decodeFrom pc (code.drop pc)) := by
  induction rounds generalizing pc with
  | zero => rw [decodeFrom, List.drop_eq_nil_of_le (by omega), Program.decodeFrom_nil]
  | succ rounds ih =>
    rw [decodeFrom]
    split
    case isFalse hpc => rw [List.drop_eq_nil_of_le (by omega), Program.decodeFrom_nil]
    case isTrue hpc =>
      obtain ⟨b, rest, hdrop⟩ : ∃ b rest, code.drop pc = b :: rest :=
        ⟨_, _, List.drop_eq_getElem_cons hpc⟩
      have hb : code[pc]? = some b := by
        have := congrArg (·[0]?) hdrop
        simpa [List.getElem?_drop] using this
      have himm : ((Program.read pc b rest).imm.getD []).length ≤ 32 := by
        have := Opcode.width_ofByte_le b
        rw [Program.getD_imm_read, List.length_take]
        omega
      have husize : bufferLimit + 64 < usize := by decide
      rw [index_eq hb, pure_bind]
      dsimp only
      rw [immediateAt_eq h hdrop, pure_bind, add_eq (by omega), pure_bind, add_eq (by omega),
        pure_bind, ih (by omega), pure_bind, decodeFrom_next hdrop, hdrop, Program.decodeFrom_eq_read_cons]
      rfl

theorem decode_eq {code : List UInt8} (h : code.length < bufferLimit) :
    decode code = pure (Program.decode code) := by
  rw [decode, decodeFrom_eq h (Nat.le_of_eq (Nat.zero_add _).symm), pure_bind, List.drop_zero]
  rfl

theorem atPc?_eq (p : Program) (pc : Nat) : atPc? p pc = pure (p.atPc? pc) := by
  rw [atPc?, Program.atPc?, List.find?_eq_bind_findIdx?_getElem?, Program.indexOf?]
  cases hi : p.instructions.findIdx? (·.pc = pc) with
  | none => rfl
  | some i =>
    obtain ⟨hlt, _⟩ := List.findIdx?_eq_some_iff_getElem.mp hi
    have hget := List.getElem?_eq_getElem hlt
    simp only [index_eq hget, pure_bind, Option.bind_some, hget]

theorem isJumpdest_eq (p : Program) (pc : Nat) : isJumpdest p pc = pure (p.isJumpdest pc) := by
  rw [isJumpdest, atPc?_eq, pure_bind]
  rfl

theorem immediate_eq (ins : Instruction) : immediate ins = pure ins.immediate := by
  cases himm : ins.imm with
  | none => simp [immediate, Instruction.immediate, himm]
  | some imm =>
    have hle : min imm.length ins.op.width ≤ imm.length := Nat.min_le_left ..
    have hlen : (imm.take (min imm.length ins.op.width)).length = min imm.length ins.op.width :=
      List.length_take_of_le hle
    have htake : imm.take (min imm.length ins.op.width) = imm.take ins.op.width :=
      List.take_eq_take_iff.mpr (by omega)
    simp only [immediate, himm]
    rw [slice_eq (Nat.zero_le _) hle, pure_bind, List.drop_zero,
      write_eq (by rw [List.length_replicate]; omega) (by omega)]
    simp [Instruction.immediate, himm, htake, Nat.min_comm]

theorem offset?_eq (ins : Instruction) : offset? ins = pure ins.offset? := by
  rw [offset?, immediate_eq, pure_bind]
  rfl

theorem withoutMetadata_safe (deployed : List UInt8) (suffix : Nat) :
    Safe (withoutMetadata deployed suffix) (Splice.withoutMetadata deployed suffix)
      fun stripped => stripped.length ≤ deployed.length := by
  simp only [withoutMetadata, Splice.withoutMetadata]
  split
  case isTrue h =>
    refine .after (sub_eq h) ?_
    rw [slice_eq (Nat.zero_le _) (Nat.sub_le ..), List.drop_zero]
    refine .ok ?_
    rw [List.length_take]
    omega
  case isFalse => exact .error rfl

theorem firstWindow?_eq_none {l : List Instruction} (h : Layout.firstEpilogue? l = none) :
    firstWindow? l = none := by
  induction l with
  | nil => rfl
  | cons ins l ih =>
    have ⟨he, hl⟩ := Option.or_eq_none_iff.mp h
    simp [firstWindow?, he, ih hl]

theorem exists_firstWindow? {l : List Instruction} {length offset : Instruction}
    (h : Layout.firstEpilogue? l = some (length, offset)) :
    ∃ window, firstWindow? l = some window ∧ window[0]? = some length ∧
      window[2]? = some offset := by
  induction l with
  | nil => simp [Layout.firstEpilogue?] at h
  | cons ins l ih =>
    rw [Layout.firstEpilogue?] at h
    cases he : Layout.epilogue? (ins :: l) with
    | some found =>
      obtain rfl : found = (length, offset) := by simpa [he] using h
      obtain ⟨dup, zero, copy, memory, ret, rest, hl, -⟩ := Layout.epilogue?_eq_some_iff.mp he
      exact ⟨(ins :: l).take 7, by simp [firstWindow?, he], by simp [hl], by simp [hl]⟩
    | none =>
      obtain ⟨window, hw, hfound⟩ := ih (by simpa [he] using h)
      exact ⟨window, by simpa [firstWindow?, he] using hw, hfound⟩

theorem locate_safe {init : List UInt8} (h : init.length < bufferLimit) (deployed : List UInt8) :
    Safe (locate init deployed) (Layout.locate init deployed) fun _ => True := by
  rw [locate, Layout.locate]
  refine .after (decode_eq h) ?_
  cases hfirst : Layout.firstEpilogue? (Program.decode init).instructions with
  | none =>
    simp only [firstWindow?_eq_none hfirst]
    exact .error rfl
  | some found =>
    obtain ⟨window, hw, hlength, hoffset⟩ := exists_firstWindow? hfirst
    simp only [hw]
    refine .after (index_eq hlength) (.after (index_eq hoffset) (.after (offset?_eq _) ?_))
    cases ho : found.2.offset?.filter (· ≤ init.length) with
    | none => exact .error rfl
    | some n =>
      have hle : n ≤ init.length := by
        have := (Option.filter_eq_some_iff.mp ho).2
        simpa using this
      dsimp only
      refine .after (offset?_eq _) (.after (slice_eq hle (Nat.le_refl _)) ?_)
      rw [List.take_length]
      split
      case isTrue => exact .ok trivial
      case isFalse => exact .error rfl

end Guarded
end Splice
