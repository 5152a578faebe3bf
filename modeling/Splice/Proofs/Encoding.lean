import Splice.Program.Encoding
import Splice.Proofs.Step

namespace Splice

namespace Opcode

theorem pos_of_ofByte_eq_push {b : UInt8} {n : Nat} (h : ofByte b = push n) : 0 < n := by
  rcases ofByte_cases b with ⟨m, _, hm⟩ | ⟨m, _, hm⟩ | ⟨m, _, hm⟩ | hm | hm
  case inl =>
    cases hm.symm.trans h
    exact Nat.succ_pos m
  case inr.inr.inr.inl =>
    have hnamed : ∀ op ∈ named, op.isPush → op = push0 := by decide
    cases hnamed _ (h ▸ hm) rfl
  all_goals cases hm.symm.trans h

theorem width_ofByte_eq_zero_iff {b : UInt8} :
    (ofByte b).width = 0 ↔ ∀ n, ofByte b ≠ push n := by
  constructor
  case mp =>
    intro hw n he
    have := pos_of_ofByte_eq_push he
    rw [he, width] at hw
    omega
  case mpr =>
    intro h
    cases ho : ofByte b with
    | push n => exact absurd ho (h n)
    | _ => rfl

end Opcode

namespace Instruction

def bytes (ins : Instruction) : List UInt8 :=
  ins.op.toByte :: ins.imm.getD []

-- What the immediate of an instruction has to be. Only the last instruction of a code may lack a
-- part of it, and all of it at worst; to have none at all is something else.
def Fits (ins : Instruction) (last : Bool) : Prop :=
  match ins.imm with
  | none => ins.op.width = 0
  | some imm => ins.op.width ≠ 0 ∧ imm.length ≤ ins.op.width ∧ (imm.length < ins.op.width → last)

theorem Fits.length_eq {ins : Instruction} (h : ins.Fits false) :
    (ins.imm.getD []).length = ins.op.width := by
  simp only [Fits] at h
  split at h
  case h_1 hi => simp [hi, h]
  case h_2 imm hi =>
    have hle := h.2.1
    have hlt := h.2.2
    simp only [hi, Option.getD_some]
    simp only [Bool.false_eq_true, imp_false, Nat.not_lt] at hlt
    omega

end Instruction

namespace Program

theorem encodeInstruction_eq_ok_iff {ins : Instruction} {last : Bool} {bs : List UInt8} :
    encodeInstruction ins last = .ok bs ↔ ins.Fits last ∧ ins.bytes = bs := by
  simp only [encodeInstruction, Instruction.Fits, Instruction.bytes]
  cases ins.imm with
  | none => by_cases hw : ins.op.width = 0 <;> simp [hw]
  | some imm =>
    dsimp only [Option.getD_some]
    by_cases hw : ins.op.width = 0
    case pos => simp [hw]
    case neg =>
      have hsize : imm.length ≤ ins.op.width ∧ (imm.length < ins.op.width → last) ↔
          ¬(ins.op.width < imm.length ∨ imm.length < ins.op.width ∧ !last) := by
        simp
      rw [if_neg hw, hsize]
      split
      case isTrue h =>
        refine iff_of_false ?_ fun hfits => hfits.1.2 h
        rintro ⟨⟩
      case isFalse h =>
        exact ⟨fun heq => ⟨⟨hw, h⟩, Except.ok.inj heq⟩, fun hfits => congrArg Except.ok hfits.2⟩

def FitAll : List Instruction → Prop
  | [] => True
  | ins :: rest => ins.Fits rest.isEmpty ∧ FitAll rest

theorem encodeAll_eq_ok_iff {l : List Instruction} {code : List UInt8} :
    encodeAll l = .ok code ↔ FitAll l ∧ l.flatMap (·.bytes) = code := by
  induction l generalizing code with
  | nil => simp [encodeAll, FitAll]
  | cons ins rest ih =>
    simp only [encodeAll, bind_eq_ok_iff, encodeInstruction_eq_ok_iff, ih, FitAll, pure,
      Except.pure, Except.ok.injEq, List.flatMap_cons]
    constructor
    case mp =>
      rintro ⟨bs, ⟨hfits, rfl⟩, bs', ⟨hrest, rfl⟩, rfl⟩
      exact ⟨⟨hfits, hrest⟩, rfl⟩
    case mpr =>
      rintro ⟨⟨hfits, hrest⟩, rfl⟩
      exact ⟨_, ⟨hfits, rfl⟩, _, ⟨hrest, rfl⟩, rfl⟩

theorem encode_eq_ok_iff {l : List Instruction} {code : List UInt8} :
    encode l = .ok code ↔ FitAll l ∧ l.flatMap (·.bytes) = code := by
  rw [← encodeAll_eq_ok_iff, encode]
  cases encodeAll l <;> simp [Except.mapError]

theorem isEmpty_decodeFrom {pc : Nat} {code : List UInt8} :
    (decodeFrom pc code).isEmpty ↔ code = [] := by
  cases code with
  | nil => simp
  | cons b rest => simp [decodeFrom_eq_read_cons]

theorem bytes_read (pc : Nat) (b : UInt8) (rest : List UInt8) :
    (read pc b rest).bytes = b :: rest.take (Opcode.ofByte b).width := by
  rw [Instruction.bytes, getD_imm_read]
  simp only [read, Opcode.toByte_ofByte]

theorem fits_read (pc next : Nat) (b : UInt8) (rest : List UInt8) :
    (read pc b rest).Fits (decodeFrom next (rest.drop (Opcode.ofByte b).width)).isEmpty := by
  simp only [Instruction.Fits, read]
  split
  case h_1 himm => simpa using himm
  case h_2 imm himm =>
    obtain ⟨hw, rfl⟩ : (Opcode.ofByte b).width ≠ 0 ∧ rest.take (Opcode.ofByte b).width = imm := by
      simpa using himm
    rw [isEmpty_decodeFrom, List.drop_eq_nil_iff, List.length_take]
    exact ⟨hw, by omega, by omega⟩

theorem fitAll_decodeFrom (pc : Nat) (code : List UInt8) : FitAll (decodeFrom pc code) := by
  induction pc, code using decodeFrom_induction with
  | nil pc => simp [FitAll]
  | cons pc b rest ih => exact decodeFrom_eq_read_cons .. ▸ ⟨fits_read .., ih⟩

theorem flatMap_bytes_decodeFrom (pc : Nat) (code : List UInt8) :
    (decodeFrom pc code).flatMap (·.bytes) = code := by
  induction pc, code using decodeFrom_induction with
  | nil pc => simp
  | cons pc b rest ih =>
    rw [decodeFrom_eq_read_cons, List.flatMap_cons, ih, bytes_read, List.cons_append,
      List.take_append_drop]

def Numbered (pc : Nat) : List Instruction → Prop
  | [] => True
  | ins :: rest => ins.pc = pc ∧ Numbered (pc + ins.size) rest

def Coded (l : List Instruction) : Prop :=
  ∀ ins ∈ l, ∃ b, ins.op = .ofByte b

theorem read_eq {ins : Instruction} {last : Bool} {b : UInt8} (h : ins.Fits last)
    (hop : ins.op = .ofByte b) : read ins.pc b (ins.imm.getD []) = ins := by
  obtain ⟨pc, op, imm⟩ := ins
  subst hop
  cases imm with
  | none =>
    have hw : (Opcode.ofByte b).width = 0 := h
    simp [read, hw]
  | some imm =>
    obtain ⟨hw, hle, -⟩ := h
    simp [read, hw, List.take_of_length_le hle]

theorem decodeFrom_flatMap_bytes {pc : Nat} {l : List Instruction} (hc : Coded l)
    (hn : Numbered pc l) (hf : FitAll l) : decodeFrom pc (l.flatMap (·.bytes)) = l := by
  induction l generalizing pc with
  | nil => simp
  | cons ins rest ih =>
    obtain ⟨⟨b, hb⟩, hc⟩ := List.forall_mem_cons.mp hc
    obtain ⟨rfl, hn⟩ := hn
    obtain ⟨hfits, hf⟩ := hf
    have hread := read_eq hfits hb
    have hbytes : ins.bytes = b :: ins.imm.getD [] := by
      rw [Instruction.bytes, hb, Opcode.toByte_ofByte]
    rw [List.flatMap_cons, hbytes, List.cons_append]
    cases rest with
    | nil =>
      -- Nothing is read behind the last instruction, however short its immediate is.
      have hle : (ins.imm.getD []).length ≤ (Opcode.ofByte b).width := by
        have := congrArg (fun i : Instruction => (i.imm.getD []).length) hread
        simp only [getD_imm_read, List.length_take] at this
        omega
      rw [List.flatMap_nil, List.append_nil, decodeFrom_eq_read_cons, hread,
        List.drop_eq_nil_of_le hle, decodeFrom_nil]
    | cons ins' rest =>
      have hlength : (ins.imm.getD []).length = (Opcode.ofByte b).width := hb ▸ hfits.length_eq
      have hnext : ins.next = ins.pc + ins.size := by
        simp only [Instruction.next, Instruction.size, hb, hlength]
        omega
      rw [decodeFrom_cons_append hlength, hread, hnext, ih hc hn hf]

structure Spelled (l : List Instruction) : Prop where
  plain  : ∀ ins ∈ l, (∀ n, ins.op ≠ .push n) → ins.imm = none
  pushes : ∀ ins ∈ l, ∀ n, ins.op = .push n → ∃ imm, ins.imm = some imm ∧ imm.length ≤ n
  whole  : ∀ ins ∈ l.dropLast, ∀ n imm, ins.op = .push n → ins.imm = some imm → imm.length = n

theorem fits_iff {ins : Instruction} {last : Bool} (hop : ∃ b, ins.op = .ofByte b) :
    ins.Fits last ↔ ((∀ n, ins.op ≠ .push n) → ins.imm = none) ∧
      ∀ n, ins.op = .push n →
        ∃ imm, ins.imm = some imm ∧ imm.length ≤ n ∧ (imm.length < n → last) := by
  obtain ⟨b, hb⟩ := hop
  have hzero := Opcode.width_ofByte_eq_zero_iff (b := b)
  rw [← hb] at hzero
  by_cases hpush : ∃ n, ins.op = .push n
  case pos =>
    obtain ⟨n, hn⟩ := hpush
    have hpos := Opcode.pos_of_ofByte_eq_push (hb ▸ hn)
    have hw : n ≠ 0 := by omega
    simp only [Instruction.Fits, hn, Opcode.width]
    cases ins.imm <;> simp [hw]
  case neg =>
    have hnone : ∀ n, ins.op ≠ .push n := fun n hn => hpush ⟨n, hn⟩
    simp only [Instruction.Fits, hzero.mpr hnone]
    cases ins.imm <;> simp [hnone]

theorem spelled_cons_iff {ins : Instruction} {rest : List Instruction} :
    Spelled (ins :: rest) ↔ (((∀ n, ins.op ≠ .push n) → ins.imm = none) ∧
      ∀ n, ins.op = .push n →
        ∃ imm, ins.imm = some imm ∧ imm.length ≤ n ∧ (imm.length < n → rest.isEmpty)) ∧
      Spelled rest := by
  constructor
  case mp =>
    rintro ⟨plain, pushes, whole⟩
    have ⟨hplain, plain⟩ := List.forall_mem_cons.mp plain
    have ⟨hpushes, pushes⟩ := List.forall_mem_cons.mp pushes
    cases rest with
    | nil =>
      refine ⟨⟨hplain, fun n hn => ?_⟩, plain, pushes, by simp⟩
      have ⟨imm, himm, hle⟩ := hpushes n hn
      exact ⟨imm, himm, hle, fun _ => rfl⟩
    | cons ins' rest =>
      have ⟨hwhole, whole⟩ := List.forall_mem_cons.mp whole
      refine ⟨⟨hplain, fun n hn => ?_⟩, plain, pushes, whole⟩
      have ⟨imm, himm, hle⟩ := hpushes n hn
      exact ⟨imm, himm, hle, fun hlt => absurd (hwhole n imm hn himm) (Nat.ne_of_lt hlt)⟩
  case mpr =>
    rintro ⟨⟨hplain, hpushes⟩, plain, pushes, whole⟩
    refine ⟨List.forall_mem_cons.mpr ⟨hplain, plain⟩,
      List.forall_mem_cons.mpr ⟨fun n hn => ?_, pushes⟩, ?_⟩
    · have ⟨imm, himm, hle, _⟩ := hpushes n hn
      exact ⟨imm, himm, hle⟩
    cases rest with
    | nil => simp
    | cons ins' rest =>
      refine List.forall_mem_cons.mpr ⟨fun n imm hn himm => ?_, whole⟩
      have ⟨imm', himm', hle, hcut⟩ := hpushes n hn
      cases himm.symm.trans himm'
      exact Nat.le_antisymm hle (Nat.not_lt.mp fun hlt => by simpa using hcut hlt)

theorem fitAll_iff {l : List Instruction} (hc : Coded l) : FitAll l ↔ Spelled l := by
  induction l with
  | nil =>
    simp only [FitAll, true_iff]
    exact ⟨by simp, by simp, by simp⟩
  | cons ins rest ih =>
    have ⟨hop, hc⟩ := List.forall_mem_cons.mp hc
    rw [FitAll, fits_iff hop, ih hc, spelled_cons_iff]

-- Listings and codes correspond. Every code is what its listing is encoded to. A listing whose pcs
-- count its bytes is encoded if and only if its immediates are spelled as a code has them, and the
-- code that it is encoded to decodes to the very same listing.
theorem encode_inverts_decode :
    (∀ code, encode (decode code).instructions = .ok code) ∧
      ∀ l, Coded l → Numbered 0 l →
        ((∃ code, encode l = .ok code) ↔ Spelled l) ∧
          ∀ code, encode l = .ok code → (decode code).instructions = l := by
  refine ⟨fun code => ?_, fun l hc hn => ⟨?_, fun code h => ?_⟩⟩
  · exact encode_eq_ok_iff.mpr ⟨fitAll_decodeFrom 0 code, flatMap_bytes_decodeFrom 0 code⟩
  · simp only [encode_eq_ok_iff, exists_and_left, exists_eq', and_true]
    exact fitAll_iff hc
  · obtain ⟨hf, rfl⟩ := encode_eq_ok_iff.mp h
    exact decodeFrom_flatMap_bytes hc hn hf

def cutOff : List Instruction :=
  [⟨0, .push 2, some [0x01, 0x5b]⟩, ⟨3, .push0, none⟩, ⟨4, .push 3, some []⟩]

theorem encode_inverts_decode_cutOff :
    encode cutOff = .ok [0x61, 0x01, 0x5b, 0x5f, 0x62] ∧ Spelled cutOff ∧
      (decode [0x61, 0x01, 0x5b, 0x5f, 0x62]).instructions = cutOff := by
  have hc : Coded cutOff := by
    simp only [Coded, cutOff, List.forall_mem_cons]
    exact ⟨⟨0x61, by decide⟩, ⟨0x5f, by decide⟩, ⟨0x62, by decide⟩, by simp⟩
  have hn : Numbered 0 cutOff := ⟨rfl, rfl, rfl, trivial⟩
  have h : encode cutOff = .ok [0x61, 0x01, 0x5b, 0x5f, 0x62] := rfl
  have ⟨hspelled, hback⟩ := encode_inverts_decode.2 cutOff hc hn
  exact ⟨h, hspelled.mp ⟨_, h⟩, hback _ h⟩

end Program
end Splice
