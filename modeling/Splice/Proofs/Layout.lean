import Splice.Layout
import Splice.Proofs.Program

namespace Splice

namespace Program

theorem exists_front_of_decodeFrom {pc : Nat} {code : List UInt8} {l rest : List Instruction}
    {last : Instruction} (h : decodeFrom pc code = l ++ last :: rest)
    (ht : last.isTruncated = false) :
    ∃ front back, code = front ++ back ∧ decodeFrom pc front = l ++ [last] ∧
      (∀ ins ∈ l ++ [last], ins.isTruncated = false) ∧ pc + front.length = last.next := by
  induction pc, code using decodeFrom_induction generalizing l with
  | nil pc => simp at h
  | cons pc b bytes ih =>
    rw [decodeFrom_eq_read_cons] at h
    have hl : (Opcode.ofByte b).width ≤ bytes.length := by
      cases l with
      | nil =>
        obtain ⟨rfl, -⟩ := List.cons.inj h
        exact isTruncated_read.mp ht
      | cons ins l =>
        have hm : last ∈ decodeFrom (read pc b bytes).next
            (bytes.drop (Opcode.ofByte b).width) := by
          rw [(List.cons.inj h).2]
          exact List.mem_append_right _ List.mem_cons_self
        exact le_length_of_mem_decodeFrom_drop hm
    obtain ⟨imm, bytes, rfl, himm⟩ :
        ∃ imm back, bytes = imm ++ back ∧ imm.length = (Opcode.ofByte b).width :=
      ⟨_, _, (List.take_append_drop ..).symm, List.length_take_of_le hl⟩
    have hread : (read pc b imm).isTruncated = false :=
      isTruncated_read.mpr (Nat.le_of_eq himm.symm)
    have hnext : pc + (b :: imm).length = (read pc b imm).next := by
      simp only [List.length_cons, himm, Instruction.next, read]
      omega
    rw [read_append (Nat.le_of_eq himm.symm), ← himm, List.drop_left] at h ih
    cases l with
    | nil =>
      obtain ⟨rfl, -⟩ := List.cons.inj h
      refine ⟨b :: imm, bytes, rfl, ?_, by simpa using hread, hnext⟩
      have := decodeFrom_cons_append himm pc []
      rwa [List.append_nil, decodeFrom_nil] at this
    | cons ins l =>
      obtain ⟨rfl, htail⟩ := List.cons.inj h
      obtain ⟨front, back, hbytes, hfront, hall, hlength⟩ := ih htail
      refine ⟨b :: (imm ++ front), back, by simp [hbytes], ?_, ?_, ?_⟩
      · rw [decodeFrom_cons_append himm, hfront, List.cons_append]
      · exact List.forall_mem_cons.mpr ⟨hread, hall⟩
      · rw [← hlength, ← hnext, List.length_cons, List.length_append, List.length_cons]
        omega

end Program

theorem Instruction.not_isTruncated_of_decodeFrom {pc : Nat} {code : List UInt8}
    {ins : Instruction} (h : ins ∈ Program.decodeFrom pc code) (hw : ins.op.width = 0) :
    ins.isTruncated = false := by
  induction pc, code using Program.decodeFrom_induction with
  | nil pc => simp at h
  | cons pc b rest ih =>
    rw [Program.decodeFrom_eq_read_cons] at h
    rcases List.mem_cons.mp h with rfl | hm
    case inl => exact Program.isTruncated_read.mpr (hw ▸ Nat.zero_le _)
    case inr => exact ih hm

theorem Instruction.offset?_of_lt {ins : Instruction} (h : ins.value < BigEndian.bound 8) :
    ins.offset? = some ins.value :=
  offset?_eq_some_iff.mpr ⟨h, rfl⟩

namespace Layout

theorem locate_eq_ok_iff {init deployed : List UInt8} {layout : Layout} :
    locate init deployed = .ok layout ↔ ∃ length offset,
      firstEpilogue? (Program.decode init).instructions = some (length, offset) ∧
      offset.offset? = some layout.runtimeOffset ∧ layout.runtimeOffset ≤ init.length ∧
      init.drop layout.runtimeOffset = deployed ∧ layout.lengthPc = length.pc ∧
      layout.offsetPc = offset.pc ∧
      layout.runtimeLength = length.offset?.getD (BigEndian.bound 8 - 1) := by
  obtain ⟨lengthPc, runtimeLength, offsetPc, runtimeOffset⟩ := layout
  simp only [locate]
  constructor
  case mp =>
    intro h
    split at h
    case h_1 => simp at h
    case h_2 length offset hfirst =>
      split at h
      case h_1 => simp at h
      case h_2 n hn =>
        obtain ⟨hoffset, hle⟩ := Option.filter_eq_some_iff.mp hn
        split at h
        case isFalse => simp at h
        case isTrue hpayload =>
          cases h
          exact ⟨length, offset, hfirst, hoffset, by simpa using hle, hpayload, rfl, rfl, rfl⟩
  case mpr =>
    rintro ⟨length, offset, hfirst, hoffset, hle, hpayload, rfl, rfl, rfl⟩
    have hfilter : (some runtimeOffset).filter (· ≤ init.length) = some runtimeOffset := by
      simp [Option.filter, hle]
    simp only [hfirst, hoffset, hfilter, if_pos hpayload]

theorem epilogue?_eq_some_iff {l : List Instruction} {length offset : Instruction} :
    epilogue? l = some (length, offset) ↔ ∃ dup zero copy memory ret rest,
      l = length :: dup :: offset :: zero :: copy :: memory :: ret :: rest ∧
      length.op.isPush ∧ dup.op = .dup 1 ∧ offset.op.isPush ∧ zero.op.isPush ∧
      copy.op = .codecopy ∧ memory.op.isPush ∧ ret.op = .ret := by
  constructor
  case mp =>
    intro h
    simp only [epilogue?] at h
    split at h
    case h_2 => simp at h
    case h_1 =>
      split at h
      case isFalse => simp at h
      case isTrue hops =>
        cases h
        exact ⟨_, _, _, _, _, _, rfl, hops⟩
  case mpr =>
    rintro ⟨dup, zero, copy, memory, ret, rest, rfl, hops⟩
    simp [epilogue?, hops]

theorem epilogue?_append {w : List Instruction} (h : 7 ≤ w.length) (rest : List Instruction) :
    epilogue? (w ++ rest) = epilogue? w := by
  match w, h with
  | _ :: _ :: _ :: _ :: _ :: _ :: _ :: _, _ => rfl

variable {l : List Instruction} {length offset : Instruction}

theorem exists_of_firstEpilogue? (h : firstEpilogue? l = some (length, offset)) :
    ∃ front w rest, l = front ++ w ++ rest ∧ w.length = 7 ∧
      epilogue? w = some (length, offset) ∧
      ∀ rest', firstEpilogue? (front ++ w ++ rest') = some (length, offset) := by
  induction l with
  | nil => simp [firstEpilogue?] at h
  | cons ins l ih =>
    rw [firstEpilogue?] at h
    cases he : epilogue? (ins :: l) with
    | some found =>
      obtain rfl : found = (length, offset) := by simpa [he] using h
      obtain ⟨dup, zero, copy, memory, ret, rest, hl, hops⟩ := epilogue?_eq_some_iff.mp he
      have hw : epilogue? [length, dup, offset, zero, copy, memory, ret] = some (length, offset) :=
        epilogue?_eq_some_iff.mpr ⟨dup, zero, copy, memory, ret, [], rfl, hops⟩
      refine ⟨[], [length, dup, offset, zero, copy, memory, ret], rest, hl, rfl, hw, ?_⟩
      intro rest'
      have hfound : epilogue? (length :: ([dup, offset, zero, copy, memory, ret] ++ rest')) =
          some (length, offset) :=
        epilogue?_eq_some_iff.mpr ⟨dup, zero, copy, memory, ret, rest', rfl, hops⟩
      rw [List.nil_append, List.cons_append, firstEpilogue?, hfound, Option.some_or]
    | none =>
      have ⟨front, w, rest, hl, hw, hfound, hall⟩ := ih (by simpa [he] using h)
      refine ⟨ins :: front, w, rest, by simp [hl], hw, hfound, fun rest' => ?_⟩
      -- Seven instructions and more decide that no epilogue starts with the first one.
      have hlong : 7 ≤ (ins :: (front ++ w)).length := by
        simp only [List.length_cons, List.length_append]
        omega
      have hnone : epilogue? (ins :: (front ++ w ++ rest')) = none := by
        rw [hl, ← List.cons_append, epilogue?_append hlong] at he
        rw [← List.cons_append, epilogue?_append hlong, he]
      simp only [List.cons_append, firstEpilogue?, hnone, Option.none_or, hall rest']

theorem exists_length_of_locate {init deployed : List UInt8} {layout : Layout}
    (h : locate init deployed = .ok layout) :
    ∃ length, (Program.decode init).atPc? layout.lengthPc = some length ∧ length.op.isPush ∧
      layout.runtimeLength = length.offset?.getD (BigEndian.bound 8 - 1) := by
  obtain ⟨length, offset, hfirst, -, -, -, hpc, -, hlength⟩ := locate_eq_ok_iff.mp h
  have ⟨front, w, rest, hl, _, hw, _⟩ := exists_of_firstEpilogue? hfirst
  obtain ⟨dup, zero, copy, memory, ret, rest', rfl, hpush, -⟩ := epilogue?_eq_some_iff.mp hw
  refine ⟨length, ?_, hpush, hlength⟩
  exact (Program.tiled_decode init).atPc?_eq_some_iff.mpr ⟨by simp [hl], hpc.symm⟩

section

variable {f : Instruction → Instruction} (hf : ∀ ins, (f ins).op = ins.op)

include hf

theorem epilogue?_map : epilogue? (l.map f) = (epilogue? l).map (Prod.map f f) := by
  simp only [epilogue?]
  match l with
  | a :: b :: c :: d :: e :: g :: i :: _ =>
    simp only [List.map_cons, hf]
    split <;> rfl
  | [] | [_] | [_, _] | [_, _, _] | [_, _, _, _] | [_, _, _, _, _] | [_, _, _, _, _, _] => rfl

theorem firstEpilogue?_map : firstEpilogue? (l.map f) = (firstEpilogue? l).map (Prod.map f f) := by
  induction l with
  | nil => rfl
  | cons ins l ih =>
    rw [List.map_cons, firstEpilogue?, firstEpilogue?, ← List.map_cons, epilogue?_map hf, ih]
    cases epilogue? (ins :: l) <;> rfl

end

end Layout
end Splice
