import Splice.Patch
import Splice.Proofs.Program

namespace Splice

namespace Patcher

theorem overwrite_zero (code bytes : List UInt8) :
    overwrite code 0 bytes = bytes ++ code.drop bytes.length := by
  simp [overwrite]

theorem overwrite_cons (b : UInt8) (code : List UInt8) (offset : Nat) (bytes : List UInt8) :
    overwrite (b :: code) (offset + 1) bytes = b :: overwrite code offset bytes := by
  simp [overwrite, Nat.add_right_comm]

theorem overwrite_append (front code : List UInt8) (offset : Nat) (bytes : List UInt8) :
    overwrite (front ++ code) (front.length + offset) bytes =
      front ++ overwrite code offset bytes := by
  induction front with
  | nil => simp
  | cons b front ih =>
    rw [List.cons_append, List.length_cons, Nat.add_right_comm, overwrite_cons, ih,
      List.cons_append]

theorem overwrite_append_left {code bytes : List UInt8} {offset : Nat}
    (h : offset + bytes.length ≤ code.length) (back : List UInt8) :
    overwrite (code ++ back) offset bytes = overwrite code offset bytes ++ back := by
  simp [overwrite, List.take_append_of_le_length (Nat.le_trans (Nat.le_add_right ..) h),
    List.drop_append_of_le_length h]

end Patcher

namespace Program

open Patcher

-- Overwriting a complete immediate changes the instruction that it belongs to, and no other.
theorem decodeFrom_overwrite {pc : Nat} {code bytes : List UInt8} {ins : Instruction}
    (h : ins ∈ decodeFrom pc code) (ht : ins.isTruncated = false) (hw : 0 < ins.op.width)
    (hb : bytes.length = ins.op.width) :
    decodeFrom pc (overwrite code (ins.pc - pc + 1) bytes) =
      (decodeFrom pc code).map fun i => if i.pc = ins.pc then i.withImmediate bytes else i := by
  induction pc, code using decodeFrom_induction with
  | nil pc => simp at h
  | cons pc b rest ih =>
    rw [decodeFrom_eq_read_cons] at h
    have hl : (Opcode.ofByte b).width ≤ rest.length := by
      rcases List.mem_cons.mp h with rfl | hm
      case inl => exact isTruncated_read.mp ht
      case inr => exact le_length_of_mem_decodeFrom_drop hm
    obtain ⟨front, back, rfl, hfront⟩ :
        ∃ front back, rest = front ++ back ∧ front.length = (Opcode.ofByte b).width :=
      ⟨_, _, (List.take_append_drop ..).symm, List.length_take_of_le hl⟩
    rw [← decodeFrom_eq_read_cons, decodeFrom_cons_append hfront] at h
    rw [read_append (Nat.le_of_eq hfront.symm), ← hfront, List.drop_left] at ih
    have laid := laid_decodeFrom (read pc b front).next back
    rw [decodeFrom_cons_append hfront, List.map_cons]
    rcases List.mem_cons.mp h with rfl | hm
    case inl =>
      have htail : ∀ i ∈ decodeFrom (read pc b front).next back, i.pc ≠ (read pc b front).pc := by
        intro i hi
        have := laid.le_pc hi
        simp only [Instruction.next] at this
        omega
      have hread : (read pc b front).withImmediate bytes = read pc b bytes := by
        have hne : (Opcode.ofByte b).width ≠ 0 := Nat.ne_of_gt hw
        have hbytes : bytes.take (Opcode.ofByte b).width = bytes :=
          List.take_of_length_le (Nat.le_of_eq hb)
        simp only [Instruction.withImmediate, read, if_neg hne, hbytes]
      have hoffset : (read pc b front).pc - pc + 1 = 0 + 1 := by simp [read]
      have hlen : bytes.length = front.length := hb.trans hfront.symm
      rw [hoffset, overwrite_cons, overwrite_zero, hlen, List.drop_left,
        decodeFrom_cons_append hb, if_pos rfl, hread,
        List.map_congr_left fun i hi => if_neg (htail i hi), List.map_id']
      rfl
    case inr =>
      have hpc := laid.le_pc hm
      have hne : (read pc b front).pc ≠ ins.pc := by
        simp only [Instruction.next] at hpc
        omega
      have hoffset : ins.pc - pc = front.length + (ins.pc - (read pc b front).next + 1) := by
        simp only [Instruction.next, read] at hpc ⊢
        omega
      rw [hoffset, overwrite_cons, overwrite_append, decodeFrom_cons_append hfront, if_neg hne,
        ih hm]

theorem immediate_of_mem_decodeFrom {pc : Nat} {code : List UInt8} {ins : Instruction}
    (h : ins ∈ decodeFrom pc code) (ht : ins.isTruncated = false) :
    ins.pc - pc + 1 + ins.op.width ≤ code.length ∧
      (code.drop (ins.pc - pc + 1)).take ins.op.width = ins.immediate := by
  induction pc, code using decodeFrom_induction with
  | nil pc => simp at h
  | cons pc b rest ih =>
    rw [decodeFrom_eq_read_cons] at h
    rcases List.mem_cons.mp h with rfl | hm
    case inl =>
      have hl := isTruncated_read.mp ht
      rw [Instruction.immediate_of_not_isTruncated ht, getD_imm_read]
      simp only [read, Nat.sub_self, List.length_cons, Nat.zero_add, List.drop_succ_cons,
        List.drop_zero, and_true]
      omega
    case inr =>
      have hl := le_length_of_mem_decodeFrom_drop hm
      have hpc := (laid_decodeFrom _ _).le_pc hm
      obtain ⟨hlength, htake⟩ := ih hm
      simp only [Instruction.next, read, List.length_drop, List.drop_drop] at hpc hlength htake
      have hoffset : ins.pc - pc + 1 =
          (Opcode.ofByte b).width + (ins.pc - (pc + 1 + (Opcode.ofByte b).width) + 1) + 1 := by
        omega
      rw [hoffset, List.length_cons, List.drop_succ_cons]
      exact ⟨by omega, htake⟩

theorem value_of_atPc? {code : List UInt8} {pc : Nat} {ins : Instruction}
    (h : (decode code).atPc? pc = some ins) (ht : ins.isTruncated = false) (back : List UInt8) :
    pc + 1 + ins.op.width ≤ code.length ∧
      BigEndian.value (((code ++ back).drop (pc + 1)).take ins.op.width) = ins.value := by
  obtain ⟨hm, rfl⟩ := (tiled_decode code).atPc?_eq_some_iff.mp h
  have ⟨hle, himm⟩ := immediate_of_mem_decodeFrom hm ht
  rw [Nat.sub_zero] at hle himm
  refine ⟨hle, ?_⟩
  rw [List.drop_append_of_le_length (by omega), List.take_append_of_le_length, himm]
  · rfl
  · rw [List.length_drop]
    omega

end Program

namespace Instruction

variable {delta : Nat} {pcs : List Nat} {ins : Instruction}

def raise (delta : Nat) (pcs : List Nat) (ins : Instruction) : Instruction :=
  if ins.pc ∈ pcs then ins.withImmediate (BigEndian.bytes ins.op.width (ins.value + delta))
  else ins

@[simp]
theorem pc_raise : (ins.raise delta pcs).pc = ins.pc := by
  simp only [raise]
  split <;> rfl

@[simp]
theorem op_raise : (ins.raise delta pcs).op = ins.op := by
  simp only [raise]
  split <;> rfl

theorem raise_of_not_mem (h : ins.pc ∉ pcs) : ins.raise delta pcs = ins :=
  if_neg h

theorem value_raise (h : ins.pc ∈ pcs) (hlt : ins.value + delta < BigEndian.bound ins.op.width) :
    (ins.raise delta pcs).value = ins.value + delta := by
  simp only [raise, if_pos h, value]
  rw [immediate_withImmediate (BigEndian.length_bytes ..)]
  exact BigEndian.value_bytes_of_lt hlt

end Instruction

namespace Program

def raise (delta : Nat) (pcs : List Nat) (p : Program) : Program where
  instructions := p.instructions.map (·.raise delta pcs)

theorem raise_congr {delta : Nat} {pcs pcs' : List Nat} (h : ∀ pc, pc ∈ pcs ↔ pc ∈ pcs')
    (p : Program) : p.raise delta pcs = p.raise delta pcs' := by
  simp only [raise, Instruction.raise, h]

theorem raise_nil (delta : Nat) (p : Program) : p.raise delta [] = p := by
  simp [raise, Instruction.raise]

theorem atPc?_raise {delta : Nat} {pcs : List Nat} {p : Program} {pc : Nat} :
    (p.raise delta pcs).atPc? pc = (p.atPc? pc).map (·.raise delta pcs) := by
  have hpc : (fun ins : Instruction => decide (ins.pc = pc)) ∘ Instruction.raise delta pcs =
      fun ins => decide (ins.pc = pc) := by
    funext ins
    rw [Function.comp_apply, Instruction.pc_raise]
  simp only [raise, atPc?, List.find?_map, hpc]

end Program

def Program.Patchable (p : Program) (delta pc : Nat) : Prop :=
  ∃ ins, p.atPc? pc = some ins ∧ ins.op.isPush ∧ ins.isTruncated = false ∧ 1 ≤ ins.op.width ∧
    ins.op.width ≤ 2 ∧ ins.value + delta < BigEndian.bound ins.op.width

namespace Patcher

open Program

variable {front back : List UInt8} {t t' : Patcher} {group : PushGroup}

-- What a patcher has done to the front part of a code: decoding shows the same instructions as
-- before, with the patched ones raised, whatever is read behind the front part.
structure Raises (front back : List UInt8) (t : Patcher) : Prop where
  code    : ∃ front', t.code = front' ++ back ∧ front'.length = front.length ∧
    ∀ c, decode (front' ++ c) = (decode (front ++ c)).raise t.delta t.patched
  patched : ∀ pc ∈ t.patched, (decode front).Patchable t.delta pc

theorem raises_start (delta : Nat) : Raises front back (start delta (front ++ back)) where
  code    := ⟨front, rfl, rfl, fun c => (raise_nil ..).symm⟩
  patched := by simp [start]

def Checked (p : Program) (target : Nat × Nat) : Prop :=
  ∃ ins, p.atPc? target.1 = some ins ∧ ins.op.isPush ∧ ins.isTruncated = false ∧
    ins.op.width = target.2 ∧ 1 ≤ target.2 ∧ target.2 ≤ 2

structure Passed (p : Program) (group : PushGroup) (targets : List (Nat × Nat)) (t t' : Patcher) :
    Prop where
  checked : ∀ target ∈ targets, Checked p target
  fits    : ∀ target ∈ targets, target.1 + 1 + target.2 ≤ t.code.length
  same    : ∃ widths, t' = { t with widths }
  held    : ∀ width, t.widths group = some width → t'.widths group = some width
  width   : ∀ target ∈ targets, t'.widths group = some target.2

theorem passed_of_check {p : Program} {pc width : Nat} (h : check p group pc t = (.ok width, t')) :
    Passed p group [(pc, width)] t t' := by
  simp only [check] at h
  split at h
  case h_1 => simp at h
  case h_2 ins hins =>
    obtain ⟨hins, hp⟩ := Option.filter_eq_some_iff.mp hins
    split at h
    case isTrue => simp at h
    case isFalse ht =>
      split at h
      case isTrue => simp at h
      case isFalse hw =>
        have hc : Checked p (pc, ins.op.width) :=
          ⟨ins, hins, hp, by simpa using fun h => ht (.inl h), rfl, by omega, by omega⟩
        have hfits : pc + 1 + ins.op.width ≤ t.code.length := by omega
        split at h
        case h_1 hnone =>
          cases h
          exact ⟨by simpa using hc, by simpa using hfits, ⟨_, rfl⟩, by simp [hnone],
            by simp [setWidth]⟩
        case h_2 expected hsome =>
          split at h
          case isTrue heq =>
            cases h
            exact ⟨by simpa using hc, by simpa using hfits, ⟨_, rfl⟩, fun _ => id,
              by simp [hsome, heq]⟩
          case isFalse => simp at h

theorem passed_of_checkAll {p : Program} {pcs : List Nat} {targets : List (Nat × Nat)}
    (h : checkAll p group pcs t = (.ok targets, t')) :
    targets.map (·.1) = pcs ∧ Passed p group targets t t' := by
  induction pcs generalizing t targets with
  | nil =>
    cases h
    exact ⟨rfl, by simp, by simp, ⟨_, rfl⟩, fun _ => id, by simp⟩
  | cons pc pcs ih =>
    simp only [checkAll] at h
    split at h
    case h_1 => simp at h
    case h_2 width t₁ hcheck =>
      obtain ⟨hc, hfits, ⟨widths, rfl⟩, hheld, hwidth⟩ := passed_of_check hcheck
      split at h
      case h_1 => simp at h
      case h_2 targets t₂ hall =>
        cases h
        obtain ⟨rfl, hcs, hfits', ⟨widths', rfl⟩, hheld', hwidths⟩ := ih hall
        rw [List.forall_mem_singleton] at hc hfits hwidth
        exact ⟨rfl, List.forall_mem_cons.mpr ⟨hc, hcs⟩, List.forall_mem_cons.mpr ⟨hfits, hfits'⟩,
          ⟨_, rfl⟩, fun w hw => hheld' w (hheld w hw),
          List.forall_mem_cons.mpr ⟨hheld' _ hwidth, hwidths⟩⟩

theorem settle_eq_ok_iff {α : Type} {o : Outcome α} : o.settle = .ok t ↔ ∃ a, o = (.ok a, t) := by
  obtain ⟨_ | _, _⟩ := o <;> simp [Outcome.settle]

theorem exists_of_patch {p : Program} {pcs : List Nat}
    (h : (patch p group pcs t).settle = .ok t') :
    ∃ targets t₁ count, targets.map (·.1) = pcs ∧ Passed p group targets t t₁ ∧
      applyAll group targets t₁ = (.ok count, t') := by
  obtain ⟨count, h⟩ := settle_eq_ok_iff.mp h
  simp only [patch] at h
  split at h
  case h_1 => simp at h
  case h_2 targets t₁ hall =>
    obtain ⟨hpcs, hpassed⟩ := passed_of_checkAll hall
    exact ⟨targets, t₁, count, hpcs, hpassed, h⟩

theorem checkAll_congr {p q : Program} {pcs : List Nat}
    (h : ∀ pc ∈ pcs, p.atPc? pc = q.atPc? pc) :
    checkAll p group pcs t = checkAll q group pcs t := by
  induction pcs generalizing t with
  | nil => rfl
  | cons pc pcs ih =>
    have ⟨hpc, hpcs⟩ := List.forall_mem_cons.mp h
    have hcheck : check p group pc t = check q group pc t := by
      simp only [check, hpc]
    simp only [checkAll, hcheck, ih hpcs]

theorem patch_congr {p q : Program} {pcs : List Nat} (h : ∀ pc ∈ pcs, p.atPc? pc = q.atPc? pc) :
    patch p group pcs t = patch q group pcs t := by
  simp only [patch, checkAll_congr h]

theorem decode_overwrite {code : List UInt8} {p : Program} {delta : Nat} {pcs : List Nat}
    (hp : p.Tiled) (hcode : decode code = p.raise delta pcs) {pc : Nat} {ins : Instruction}
    (hins : p.atPc? pc = some ins) (ht : ins.isTruncated = false) (hw : 0 < ins.op.width)
    (hpc : pc ∉ pcs) :
    decode (overwrite code (pc + 1) (BigEndian.bytes ins.op.width (ins.value + delta))) =
      p.raise delta (pc :: pcs) := by
  obtain ⟨hm, rfl⟩ := hp.atPc?_eq_some_iff.mp hins
  have hmcode : ins ∈ decodeFrom 0 code := by
    have hraise : ins.raise delta pcs ∈ (p.raise delta pcs).instructions :=
      List.mem_map_of_mem hm
    rwa [Instruction.raise_of_not_mem hpc, ← hcode] at hraise
  have hover := decodeFrom_overwrite hmcode ht hw
    (BigEndian.length_bytes ins.op.width (ins.value + delta))
  have hdecode : decodeFrom 0 code = p.instructions.map (·.raise delta pcs) :=
    congrArg instructions hcode
  simp only [decode, raise, Program.mk.injEq]
  rw [Nat.sub_zero] at hover
  rw [hover, hdecode, List.map_map]
  refine List.map_congr_left fun i hi => ?_
  by_cases he : i.pc = ins.pc
  case pos =>
    obtain rfl : i = ins :=
      Option.some.inj ((hp.atPc?_eq_some_iff.mpr ⟨hi, he⟩).symm.trans hins)
    simp [Instruction.raise, hpc]
  case neg =>
    have hne : (i.raise delta pcs).pc ≠ ins.pc := by rwa [Instruction.pc_raise]
    simp only [Function.comp_apply, if_neg hne]
    simp [Instruction.raise, he]

theorem Raises.apply (h : Raises front back t) {target : Nat × Nat}
    (hc : Checked (decode front) target) {patched : Bool}
    (ha : apply group target.1 target.2 t = (.ok patched, t')) :
    Raises front back t' ∧ t'.delta = t.delta ∧
      ∀ q, q ∈ t'.patched ↔ q = target.1 ∨ q ∈ t.patched := by
  have ⟨pc, _⟩ := target
  obtain ⟨ins, hins, hpush, ht, rfl, hlow, hhigh⟩ := hc
  have ⟨front', hcode, hlength, hdecode⟩ := h.code
  simp only [Patcher.apply] at ha
  split at ha
  case isTrue hmem =>
    cases ha
    refine ⟨h, rfl, fun q => ?_⟩
    simpa using fun hq : q = pc => hq ▸ hmem
  case isFalse hmem =>
    have hins' : (decode front').atPc? pc = some ins := by
      have := hdecode []
      simp only [List.append_nil] at this
      rw [this, atPc?_raise, hins, Option.map_some, Instruction.raise_of_not_mem]
      rwa [pc_of_atPc? hins]
    have ⟨hle, hbefore⟩ := value_of_atPc? hins' ht back
    rw [hcode, hbefore] at ha
    split at ha
    case isFalse => simp at ha
    case isTrue hlt =>
      cases ha
      have hb := BigEndian.length_bytes ins.op.width (ins.value + t.delta)
      refine ⟨⟨⟨overwrite front' (pc + 1) (BigEndian.bytes ins.op.width (ins.value + t.delta)),
        ?_, ?_, ?_⟩, ?_⟩, rfl, by simp⟩
      · exact hcode ▸ overwrite_append_left (by omega) back
      · rw [length_overwrite (by omega), hlength]
      · intro c
        rw [← overwrite_append_left (by omega)]
        exact decode_overwrite (tiled_decode _) (hdecode c) (atPc?_append hins ht c) ht hlow hmem
      · rintro q (_ | ⟨_, hq⟩)
        · exact ⟨ins, hins, hpush, ht, hlow, hhigh, hlt⟩
        · exact h.patched q hq

theorem Raises.applyAll (h : Raises front back t) {targets : List (Nat × Nat)}
    (hc : ∀ target ∈ targets, Checked (decode front) target) {count : Nat}
    (ha : applyAll group targets t = (.ok count, t')) :
    Raises front back t' ∧ t'.delta = t.delta ∧
      ∀ q, q ∈ t'.patched ↔ q ∈ targets.map (·.1) ∨ q ∈ t.patched := by
  induction targets generalizing t count with
  | nil =>
    cases ha
    exact ⟨h, rfl, by simp⟩
  | cons target targets ih =>
    have ⟨hc, hcs⟩ := List.forall_mem_cons.mp hc
    simp only [Patcher.applyAll] at ha
    split at ha
    case h_1 => simp at ha
    case h_2 patched t₁ happly =>
      have ⟨h₁, hdelta, hpatched⟩ := h.apply hc happly
      split at ha
      case h_1 => simp at ha
      case h_2 count t₂ hall =>
        cases ha
        have ⟨h₂, hdelta', hpatched'⟩ := ih h₁ hcs hall
        refine ⟨h₂, hdelta'.trans hdelta, fun q => ?_⟩
        rw [hpatched', hpatched]
        simp [or_assoc, or_left_comm]

theorem Raises.patch (h : Raises front back t) {pcs : List Nat}
    (hp : (patch (decode front) group pcs t).settle = .ok t') :
    Raises front back t' ∧ t'.delta = t.delta ∧ ∀ q, q ∈ t'.patched ↔ q ∈ pcs ∨ q ∈ t.patched := by
  obtain ⟨targets, t₁, count, rfl, hpassed, ha⟩ := exists_of_patch hp
  obtain ⟨widths, rfl⟩ := hpassed.same
  have h₁ : Raises front back { t with widths } := ⟨h.code, h.patched⟩
  exact h₁.applyAll hpassed.checked ha

end Patcher
end Splice
