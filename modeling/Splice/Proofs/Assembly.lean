import Splice.Assembly
import Splice.Proofs.Encoding
import Splice.Proofs.Mnemonic

namespace Splice

namespace Instruction

theorem Fits.of_false {ins : Instruction} (h : ins.Fits false) {last : Bool} : ins.Fits last := by
  simp only [Fits] at *
  split at h
  case h_1 => exact h
  case h_2 => exact ⟨h.1, h.2.1, fun hlt => absurd (h.2.2 hlt) Bool.false_ne_true⟩

def span : List Instruction → Nat
  | [] => 0
  | ins :: l => ins.size + span l

@[simp]
theorem span_nil : span [] = 0 :=
  rfl

@[simp]
theorem span_cons (ins : Instruction) (l : List Instruction) :
    span (ins :: l) = ins.size + span l :=
  rfl

@[simp]
theorem span_append (l l' : List Instruction) : span (l ++ l') = span l + span l' := by
  induction l with
  | nil => simp
  | cons ins l ih => simp [ih, Nat.add_assoc]

theorem length_flatMap_bytes (l : List Instruction) : (l.flatMap (·.bytes)).length = span l := by
  induction l with
  | nil => rfl
  | cons ins l ih =>
    rw [List.flatMap_cons, List.length_append, ih, span_cons, bytes, size, List.length_cons]
    omega

end Instruction

namespace Program

theorem fitAll_of_forall {l : List Instruction} (h : ∀ ins ∈ l, ins.Fits false) : FitAll l := by
  induction l with
  | nil => trivial
  | cons ins l ih =>
    have ⟨hins, hl⟩ := List.forall_mem_cons.mp h
    exact ⟨hins.of_false, ih hl⟩

-- Instructions as a code has them from the offset `pc` on, none of them cut off.
structure Listed (pc : Nat) (l : List Instruction) : Prop where
  numbered : Numbered pc l
  coded    : Coded l
  whole    : ∀ ins ∈ l, ins.Fits false

namespace Listed

variable {pc : Nat} {ins : Instruction} {l l' : List Instruction}

theorem nil : Listed pc [] :=
  ⟨trivial, by simp [Coded], by simp⟩

theorem cons_iff : Listed pc (ins :: l) ↔
    ins.pc = pc ∧ (∃ b, ins.op = .ofByte b) ∧ ins.Fits false ∧ Listed (pc + ins.size) l := by
  constructor
  case mp =>
    intro ⟨⟨hpc, hn⟩, hc, hw⟩
    have ⟨hop, hc⟩ := List.forall_mem_cons.mp hc
    have ⟨hfits, hw⟩ := List.forall_mem_cons.mp hw
    exact ⟨hpc, hop, hfits, hn, hc, hw⟩
  case mpr =>
    intro ⟨hpc, hop, hfits, hn, hc, hw⟩
    exact ⟨⟨hpc, hn⟩, List.forall_mem_cons.mpr ⟨hop, hc⟩, List.forall_mem_cons.mpr ⟨hfits, hw⟩⟩

theorem append_iff : Listed pc (l ++ l') ↔ Listed pc l ∧ Listed (pc + Instruction.span l) l' := by
  induction l generalizing pc with
  | nil => simp [nil]
  | cons ins l ih => simp [cons_iff, ih, and_assoc, Nat.add_assoc]

theorem encode_eq_ok (h : Listed 0 l) : encode l = .ok (l.flatMap (·.bytes)) :=
  encode_eq_ok_iff.mpr ⟨fitAll_of_forall h.whole, rfl⟩

theorem instructions_decode (h : Listed 0 l) : (decode (l.flatMap (·.bytes))).instructions = l :=
  decodeFrom_flatMap_bytes h.coded h.numbered (fitAll_of_forall h.whole)

end Listed
end Program

namespace Assembly

open Program Instruction

theorem exists_ofByte_of_readOpcode {token : List Char} {op : Opcode}
    (h : readOpcode token = .ok op) : ∃ b, op = .ofByte b := by
  rw [readOpcode] at h
  split at h
  case h_1 =>
    split at h
    case h_1 =>
      cases h
      exact ⟨_, rfl⟩
    case h_2 => cases h
  case h_2 =>
    cases hop : Opcode.ofMnemonic token with
    | error fault => simp [hop, Except.mapError] at h
    | ok op' =>
      obtain rfl : op' = op := by simpa [hop, Except.mapError] using h
      exact ⟨_, (Opcode.ofByte_toByte_of_mem (Opcode.mem_mnemonics_of_ofMnemonic hop)).symm⟩

theorem length_of_readImmediate {token : List Char} {width : Nat} {bytes : List UInt8}
    (h : readImmediate token width = .ok bytes) : bytes.length = width := by
  rw [readImmediate] at h
  split at h
  case h_1 => cases h
  case h_2 =>
    dsimp only at h
    split at h
    case h_1 => cases h
    case h_2 given _ =>
      split at h
      case isTrue => cases h
      case isFalse hle =>
        cases h
        rw [List.length_append, List.length_replicate]
        omega

inductive Reads : Nat → List (List Char) → List Instruction → Prop
  | nil {pc} : Reads pc [] []
  | plain {pc token ts op l} (opcode : readOpcode token = .ok op) (width : op.width = 0)
      (rest : Reads (pc + 1) ts l) : Reads pc (token :: ts) (⟨pc, op, none⟩ :: l)
  | push {pc token literal ts op imm l} (opcode : readOpcode token = .ok op)
      (width : op.width ≠ 0) (immediate : readImmediate literal op.width = .ok imm)
      (rest : Reads (pc + 1 + op.width) ts l) :
    Reads pc (token :: literal :: ts) (⟨pc, op, some imm⟩ :: l)

theorem Reads.readTokens {pc : Nat} {ts : List (List Char)} {l : List Instruction}
    (h : Reads pc ts l) : readTokens pc ts = .ok l := by
  induction h with
  | nil => rw [Assembly.readTokens]
  | plain opcode width _ ih =>
    rw [Assembly.readTokens, opcode]
    simp only [bind, Except.bind, if_pos width, ih]
    rfl
  | push opcode width immediate _ ih =>
    rw [Assembly.readTokens, opcode]
    simp only [bind, Except.bind, if_neg width, immediate, ih]
    rfl

theorem reads_of_readTokens {pc : Nat} {ts : List (List Char)} {l : List Instruction}
    (h : readTokens pc ts = .ok l) : Reads pc ts l := by
  fun_induction readTokens pc ts generalizing l with
  | case1 =>
    cases h
    exact .nil
  | case2 pc token rest ihPlain ihPush =>
    have ⟨op, opcode, h⟩ := bind_eq_ok_iff.mp h
    split at h
    case isTrue width =>
      have ⟨l, hl, h⟩ := bind_eq_ok_iff.mp h
      cases h
      exact .plain opcode width (ihPlain hl)
    case isFalse width =>
      match rest, ihPush op with
      | [], _ => cases h
      | literal :: rest, ihPush =>
        have ⟨imm, immediate, h⟩ := bind_eq_ok_iff.mp h
        have ⟨l, hl, h⟩ := bind_eq_ok_iff.mp h
        cases h
        exact .push opcode width immediate (ihPush hl)

theorem Reads.listed {pc : Nat} {ts : List (List Char)} {l : List Instruction}
    (h : Reads pc ts l) : Listed pc l := by
  induction h with
  | nil => exact .nil
  | plain opcode width _ ih =>
    exact Listed.cons_iff.mpr ⟨rfl, exists_ofByte_of_readOpcode opcode, width, ih⟩
  | @push pc _ _ _ op imm l opcode width immediate _ ih =>
    have hlength := length_of_readImmediate immediate
    have hfits : (⟨pc, op, some imm⟩ : Instruction).Fits false :=
      ⟨width, Nat.le_of_eq hlength, fun hlt => absurd hlength (Nat.ne_of_lt hlt)⟩
    refine Listed.cons_iff.mpr ⟨rfl, exists_ofByte_of_readOpcode opcode, hfits, ?_⟩
    rwa [Instruction.size, Option.getD_some, hlength, ← Nat.add_assoc]

theorem readLines_cons (number pc : Nat) (line : List Char) (rest : List (List Char)) :
    readLines number pc (line :: rest) =
      (readTokens pc (tokens line)).mapError (.assembly number · (.ofList (Text.trim line))) >>=
        fun l => (l ++ ·) <$> readLines (number + 1) (pc + span l) rest := by
  have hspan (l : List Instruction) : (l.map (·.size)).sum = span l := by
    induction l with
    | nil => rfl
    | cons ins l ih => rw [List.map_cons, List.sum_cons, ih, span_cons]
  conv_lhs => whnf
  cases readTokens pc (tokens line) with
  | error => rfl
  | ok l =>
    change _ = (l ++ ·) <$> readLines (number + 1) (pc + span l) rest
    rw [← hspan]
    rfl

theorem readLines_cons_eq_ok {number pc : Nat} {line : List Char} {rest : List (List Char)}
    {l : List Instruction} :
    readLines number pc (line :: rest) = .ok l ↔ ∃ l₁ l₂, readTokens pc (tokens line) = .ok l₁ ∧
      readLines (number + 1) (pc + span l₁) rest = .ok l₂ ∧ l₁ ++ l₂ = l := by
  rw [readLines_cons]
  cases readTokens pc (tokens line) with
  | error => simp [bind_eq_ok_iff, Except.mapError]
  | ok l₁ => simpa [bind_eq_ok_iff, Except.mapError, Functor.map] using map_eq_ok_iff

theorem listed_of_readLines {number pc : Nat} {rest : List (List Char)} {l : List Instruction}
    (h : readLines number pc rest = .ok l) : Listed pc l := by
  induction rest generalizing number pc l with
  | nil =>
    cases h
    exact .nil
  | cons line rest ih =>
    obtain ⟨l₁, l₂, hline, hrest, rfl⟩ := readLines_cons_eq_ok.mp h
    exact Listed.append_iff.mpr ⟨(reads_of_readTokens hline).listed, ih hrest⟩

theorem listed_of_parse {text : List Char} {l : List Instruction} (h : parse text = .ok l) :
    Listed 0 l :=
  listed_of_readLines h

theorem assemble_of_parse {text : List Char} {l : List Instruction} (h : parse text = .ok l) :
    assemble text = .ok (l.flatMap (·.bytes)) := by
  rw [assemble, h]
  exact (listed_of_parse h).encode_eq_ok

-- A text is assembled if and only if it can be read, and the code that it is assembled to
-- disassembles to the very instructions that were read, with all their immediates whole.
theorem assembles_what_is_read (text : List Char) :
    ((∃ code, assemble text = .ok code) ↔ ∃ l, parse text = .ok l) ∧
      ∀ l, parse text = .ok l → ∃ code, assemble text = .ok code ∧
        (decode code).instructions = l ∧ ∀ ins ∈ l, ins.isTruncated = false := by
  refine ⟨⟨?_, ?_⟩, fun l h => ⟨_, assemble_of_parse h, ?_, ?_⟩⟩
  · rintro ⟨code, h⟩
    have ⟨l, hl, _⟩ := bind_eq_ok_iff.mp h
    exact ⟨l, hl⟩
  · rintro ⟨l, h⟩
    exact ⟨_, assemble_of_parse h⟩
  · exact (listed_of_parse h).instructions_decode
  · intro ins hins
    simpa [isTruncated] using ((listed_of_parse h).whole ins hins).length_eq

-- A push that goes by its byte, a comment that holds another, an immediate without digits, and a
-- line that ends with a carriage return.
def padded : List Char :=
  "UNKNOWN(0x60) 0xa # UNKNOWN(0x61)\n\u2003UNKNOWN(0x62) 0x STOP\r\nMUL".toList

def paddedListing : List Instruction := [
  ⟨0, .push 1, some [0x0a]⟩, ⟨2, .push 3, some [0x00, 0x00, 0x00]⟩, ⟨6, .stop, none⟩,
  ⟨7, .mul, none⟩
]

theorem assembles_what_is_read_padded :
    parse padded = .ok paddedListing ∧
      assemble padded = .ok [0x60, 0x0a, 0x62, 0x00, 0x00, 0x00, 0x00, 0x02] ∧
      (decode [0x60, 0x0a, 0x62, 0x00, 0x00, 0x00, 0x00, 0x02]).instructions = paddedListing := by
  have hparse : parse padded = .ok paddedListing := by decide +kernel
  have hassemble : assemble padded = .ok [0x60, 0x0a, 0x62, 0x00, 0x00, 0x00, 0x00, 0x02] := by
    rw [assemble, hparse]
    rfl
  have ⟨code, hcode, hback, _⟩ := (assembles_what_is_read padded).2 _ hparse
  cases hassemble.symm.trans hcode
  exact ⟨hparse, hassemble, hback⟩

end Assembly
end Splice
