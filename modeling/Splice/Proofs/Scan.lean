import Splice.Proofs.Encoding

namespace Splice

def immediateWidth (b : UInt8) : Nat :=
  if 0x60 ≤ b ∧ b ≤ 0x7f then b.toNat - 0x5f else 0

-- The offsets of a code at which an instruction can start: the first, and with any of them the one
-- behind the immediate that belongs to it.
inductive CodePosition (code : List UInt8) : Nat → Prop
  | start : CodePosition code 0
  | next {pc b} (here : CodePosition code pc) (byte : code[pc]? = some b) :
    CodePosition code (pc + 1 + immediateWidth b)

namespace Opcode

theorem width_ofByte (b : UInt8) : (ofByte b).width = immediateWidth b := by
  simp only [ofByte, immediateWidth]
  split
  case isTrue => rfl
  split
  case isTrue => rfl
  split
  case isTrue => rfl
  cases h : named.find? (·.toByte = b) with
  | none => rfl
  | some op =>
    have hnamed : ∀ op ∈ named, op.width = 0 := by decide
    exact hnamed op (List.mem_of_find?_eq_some h)

theorem ofByte_eq_iff {op : Opcode} (h : ofByte op.toByte = op) {b : UInt8} :
    ofByte b = op ↔ b = op.toByte := by
  constructor
  case mp =>
    rintro rfl
    exact (toByte_ofByte b).symm
  case mpr =>
    rintro rfl
    exact h

theorem ofByte_eq_jumpdest_iff {b : UInt8} : ofByte b = jumpdest ↔ b = 0x5b :=
  ofByte_eq_iff (by decide)

theorem isJump_ofByte {b : UInt8} : (ofByte b).isJump ↔ b = 0x56 ∨ b = 0x57 := by
  have hjump : ofByte b = jump ↔ b = 0x56 := ofByte_eq_iff (by decide)
  have hjumpi : ofByte b = jumpi ↔ b = 0x57 := ofByte_eq_iff (by decide)
  rw [← hjump, ← hjumpi]
  cases ofByte b <;> simp [isJump]

theorem isPush_ofByte {b : UInt8} : (ofByte b).isPush ↔ 0x5f ≤ b ∧ b ≤ 0x7f := by
  have hzero : ofByte b = push0 ↔ b = 0x5f := ofByte_eq_iff (by decide)
  have hpush : (∃ n, ofByte b = push n) ↔ 0x60 ≤ b ∧ b ≤ 0x7f := by
    rw [← not_iff_not, not_exists, ← width_ofByte_eq_zero_iff, width_ofByte, immediateWidth]
    simp only [UInt8.le_iff_toNat_le, UInt8.reduceToNat]
    split <;> simp_all
    omega
  have hor : (ofByte b).isPush ↔ ofByte b = push0 ∨ ∃ n, ofByte b = push n := by
    cases ofByte b <;> simp [isPush]
  rw [hor, hzero, hpush]
  simp only [← UInt8.toNat_inj, UInt8.le_iff_toNat_le, UInt8.reduceToNat]
  omega

end Opcode

-- The tables of a program, as one pass over its instructions fills them. What is found at a pc last
-- is what the index has.
structure Tables where
  index     : Nat → Option Nat
  pushes    : List Nat
  jumps     : List Nat
  jumpdests : List Nat

namespace Tables

def blank : Tables where
  index _ := none
  pushes := []
  jumps := []
  jumpdests := []

def add (t : Tables) (i : Nat) (ins : Instruction) : Tables :=
  let t := { t with index := fun pc => if pc = ins.pc then some i else t.index pc }
  if ins.op.isPush then { t with pushes := t.pushes ++ [ins.pc] }
  else if ins.op.isJump then { t with jumps := t.jumps ++ [ins.pc] }
  else if ins.op = .jumpdest then { t with jumpdests := t.jumpdests ++ [ins.pc] }
  else t

def addAll (t : Tables) (i : Nat) : List Instruction → Tables
  | [] => t
  | ins :: l => (t.add i ins).addAll (i + 1) l

def build (p : Program) : Tables :=
  blank.addAll 0 p.instructions

variable (t : Tables) (i : Nat) (ins : Instruction)

@[simp]
theorem index_add (pc : Nat) :
    (t.add i ins).index pc = if pc = ins.pc then some i else t.index pc := by
  simp only [add]
  split
  · rfl
  · split
    · rfl
    · split <;> rfl

theorem pushes_add :
    (t.add i ins).pushes = t.pushes ++ if ins.op.isPush then [ins.pc] else [] := by
  cases hop : ins.op <;> simp [add, hop, Opcode.isPush, Opcode.isJump]

theorem jumps_add : (t.add i ins).jumps = t.jumps ++ if ins.op.isJump then [ins.pc] else [] := by
  cases hop : ins.op <;> simp [add, hop, Opcode.isPush, Opcode.isJump]

theorem jumpdests_add :
    (t.add i ins).jumpdests = t.jumpdests ++ if ins.op = .jumpdest then [ins.pc] else [] := by
  cases hop : ins.op <;> simp [add, hop, Opcode.isPush, Opcode.isJump]

variable {t} {i} {l : List Instruction}

theorem list_addAll {list : Tables → List Nat} (select : Opcode → Bool)
    (h : ∀ t i ins, list (t.add i ins) = list t ++ if select ins.op then [ins.pc] else []) :
    list (t.addAll i l) = list t ++ (l.filter (select ·.op)).map (·.pc) := by
  induction l generalizing t i with
  | nil => simp [addAll]
  | cons ins l ih =>
    rw [addAll, ih, h, List.append_assoc, List.filter_cons]
    split <;> rfl

-- No pc comes twice, so that the last one found is the first one as well.
theorem index_addAll (h : l.Pairwise (·.pc < ·.pc)) (pc : Nat) :
    (t.addAll i l).index pc = ((l.findIdx? (·.pc = pc)).map (i + ·)).or (t.index pc) := by
  induction l generalizing t i with
  | nil => rfl
  | cons ins l ih =>
    have ⟨hpc, hl⟩ := List.pairwise_cons.mp h
    rw [addAll, ih hl, index_add, List.findIdx?_cons]
    by_cases heq : ins.pc = pc
    case pos =>
      have hnone : l.findIdx? (·.pc = pc) = none :=
        List.findIdx?_eq_none_iff.mpr fun ins' hm =>
          decide_eq_false (Nat.ne_of_gt (heq ▸ hpc ins' hm))
      simp [hnone, heq]
    case neg =>
      simp [Ne.symm heq, heq, Option.map_map, Function.comp_def, Nat.add_assoc, Nat.add_comm 1]

theorem build_eq {p : Program} (h : p.instructions.Pairwise (·.pc < ·.pc)) :
    build p = ⟨p.indexOf?, p.pushes, p.jumps, p.jumpdests⟩ := by
  have hindex : (build p).index = p.indexOf? := by
    funext pc
    simp [build, index_addAll h, blank, Program.indexOf?]
  have hpushes : (build p).pushes = p.pushes := list_addAll _ pushes_add
  have hjumps : (build p).jumps = p.jumps := list_addAll _ jumps_add
  have hjumpdests : (build p).jumpdests = p.jumpdests :=
    list_addAll (· = .jumpdest) fun _ _ _ => by simp [jumpdests_add]
  rw [← hindex, ← hpushes, ← hjumps, ← hjumpdests]

end Tables

namespace Program

variable {code : List UInt8} {pc : Nat} {ins : Instruction}

theorem exists_read_of_mem_decodeFrom (h : ins ∈ decodeFrom pc code) :
    ∃ b rest, code.drop (ins.pc - pc) = b :: rest ∧ ins = read ins.pc b rest := by
  induction pc, code using decodeFrom_induction with
  | nil pc => simp at h
  | cons pc b rest ih =>
    rw [decodeFrom_eq_read_cons] at h
    rcases List.mem_cons.mp h with rfl | hm
    case inl => exact ⟨b, rest, by simp [read], rfl⟩
    case inr =>
      obtain ⟨b', rest', hdrop, hread⟩ := ih hm
      have hpc := (laid_decodeFrom _ _).le_pc hm
      simp only [Instruction.next, read, List.drop_drop] at hpc hdrop
      have hoffset : ins.pc - pc = (Opcode.ofByte b).width +
          (ins.pc - (pc + 1 + (Opcode.ofByte b).width)) + 1 := by
        omega
      exact ⟨b', rest', by rw [hoffset, List.drop_succ_cons, hdrop], hread⟩

theorem not_isTruncated_of_mem_dropLast (h : ins ∈ (decodeFrom pc code).dropLast) :
    ins.isTruncated = false := by
  induction pc, code using decodeFrom_induction with
  | nil pc => simp at h
  | cons pc b rest ih =>
    rw [decodeFrom_eq_read_cons] at h
    cases htail : decodeFrom (read pc b rest).next (rest.drop (Opcode.ofByte b).width) with
    | nil => simp [htail] at h
    | cons ins' tail =>
      rw [htail] at h ih
      rcases List.mem_cons.mp (List.dropLast_cons_cons ▸ h) with rfl | hm
      case inl =>
        have hm : ins' ∈ decodeFrom (read pc b rest).next (rest.drop (Opcode.ofByte b).width) :=
          htail ▸ List.mem_cons_self
        exact isTruncated_read.mpr (le_length_of_mem_decodeFrom_drop hm)
      case inr => exact ih hm

theorem exists_mem_decodeFrom_next (h : ins ∈ decodeFrom pc code)
    (hlt : ins.next < pc + code.length) : ∃ ins' ∈ decodeFrom pc code, ins'.pc = ins.next := by
  induction pc, code using decodeFrom_induction with
  | nil pc => simp at h
  | cons pc b rest ih =>
    rw [decodeFrom_eq_read_cons] at h ⊢
    rw [List.length_cons] at hlt
    rcases List.mem_cons.mp h with rfl | hm
    case inl =>
      cases hrest : rest.drop (Opcode.ofByte b).width with
      | nil =>
        rw [List.drop_eq_nil_iff] at hrest
        simp only [Instruction.next, read] at hlt
        omega
      | cons b' rest' =>
        rw [decodeFrom_eq_read_cons]
        exact ⟨_, List.mem_cons_of_mem _ List.mem_cons_self, rfl⟩
    case inr =>
      have hle := le_length_of_mem_decodeFrom_drop hm
      have hlt : ins.next < (read pc b rest).next + (rest.drop (Opcode.ofByte b).width).length := by
        simp only [Instruction.next, read, List.length_drop] at hlt ⊢
        omega
      obtain ⟨ins', hm', hpc⟩ := ih hm hlt
      exact ⟨ins', List.mem_cons_of_mem _ hm', hpc⟩

theorem next_read (pc : Nat) (b : UInt8) (rest : List UInt8) :
    (read pc b rest).next = pc + 1 + immediateWidth b := by
  simp only [Instruction.next, read, Opcode.width_ofByte]

structure ReadAt (code : List UInt8) (ins : Instruction) (b : UInt8) : Prop where
  byte : code[ins.pc]? = some b
  op   : ins.op = .ofByte b
  imm  : ins.imm = if immediateWidth b = 0 then none
    else some ((code.drop (ins.pc + 1)).take (immediateWidth b))

theorem exists_readAt (h : ins ∈ (decode code).instructions) : ∃ b, ReadAt code ins b := by
  have ⟨b, rest, hdrop, hread⟩ := exists_read_of_mem_decodeFrom h
  rw [Nat.sub_zero] at hdrop
  refine ⟨b, ?_, ?_, ?_⟩
  · rw [← List.head?_drop, hdrop, List.head?_cons]
  · rw [hread, read]
  · rw [← List.drop_drop, hdrop, List.drop_succ_cons, List.drop_zero, ← Opcode.width_ofByte, hread]
    rfl

end Program

namespace CodePosition

open Program

variable {code l : List UInt8} {pc : Nat} {ins : Instruction}

theorem of_mem_decodeFrom (h : CodePosition code pc) (hl : code.drop pc = l)
    (hm : ins ∈ decodeFrom pc l) : CodePosition code ins.pc := by
  induction pc, l using decodeFrom_induction with
  | nil pc => simp at hm
  | cons pc b rest ih =>
    rw [decodeFrom_eq_read_cons] at hm
    rcases List.mem_cons.mp hm with rfl | hm
    case inl => exact h
    case inr =>
      have hb : code[pc]? = some b := by rw [← List.head?_drop, hl, List.head?_cons]
      have hnext := next_read pc b rest
      have hdrop : code.drop (Program.read pc b rest).next =
          rest.drop (Opcode.ofByte b).width := by
        rw [hnext, ← Opcode.width_ofByte, Nat.add_assoc, ← List.drop_drop, hl, Nat.add_comm 1,
          List.drop_succ_cons]
      exact ih (hnext ▸ h.next hb) hdrop hm

theorem exists_mem_decode (h : CodePosition code pc) (hlt : pc < code.length) :
    ∃ ins ∈ (decode code).instructions, ins.pc = pc := by
  induction h with
  | start =>
    cases code with
    | nil => simp at hlt
    | cons b rest =>
      rw [decode, decodeFrom_eq_read_cons]
      exact ⟨_, List.mem_cons_self, rfl⟩
  | next _ byte ih =>
    obtain ⟨ins, hm, rfl⟩ := ih (by omega)
    obtain ⟨_, hb, hop, _⟩ := exists_readAt hm
    obtain rfl := Option.some.inj (hb.symm.trans byte)
    have hnext := congrArg (ins.pc + 1 + ·.width) hop
    rw [Opcode.width_ofByte, ← Instruction.next] at hnext
    rw [← hnext] at hlt ⊢
    exact exists_mem_decodeFrom_next hm (by omega)

end CodePosition

namespace Program

variable {code : List UInt8} {pc : Nat}

theorem exists_mem_decode_iff :
    (∃ ins ∈ (decode code).instructions, ins.pc = pc) ↔
      CodePosition code pc ∧ pc < code.length := by
  constructor
  case mp =>
    rintro ⟨ins, hm, rfl⟩
    exact ⟨CodePosition.start.of_mem_decodeFrom rfl hm,
      Nat.zero_add code.length ▸ pc_lt_of_mem_decodeFrom hm⟩
  case mpr => exact fun ⟨h, hlt⟩ => h.exists_mem_decode hlt

theorem exists_readAt_iff {b : UInt8} :
    (∃ ins ∈ (decode code).instructions, ins.pc = pc ∧ ReadAt code ins b) ↔
      CodePosition code pc ∧ code[pc]? = some b := by
  constructor
  case mp =>
    rintro ⟨ins, hm, rfl, hread⟩
    exact ⟨(exists_mem_decode_iff.mp ⟨ins, hm, rfl⟩).1, hread.byte⟩
  case mpr =>
    rintro ⟨h, hb⟩
    have ⟨hlt, _⟩ := List.getElem?_eq_some_iff.mp hb
    obtain ⟨ins, hm, rfl⟩ := h.exists_mem_decode hlt
    obtain ⟨b', hread⟩ := exists_readAt hm
    cases hread.byte.symm.trans hb
    exact ⟨ins, hm, rfl, hread⟩

structure Tabulates (code : List UInt8) (bytes : UInt8 → Prop) (pcs : List Nat) : Prop where
  ascending : pcs.Pairwise (· < ·)
  mem       : ∀ pc, pc ∈ pcs ↔ CodePosition code pc ∧ ∃ b, code[pc]? = some b ∧ bytes b

theorem tabulates_pcs {select : Opcode → Bool} {bytes : UInt8 → Prop}
    (h : ∀ b, select (.ofByte b) ↔ bytes b) : Tabulates code bytes ((decode code).pcs select) where
  ascending := (tiled_decode code).pairwise_pcs select
  mem pc := by
    simp only [pcs, List.mem_map, List.mem_filter, and_assoc]
    constructor
    case mp =>
      rintro ⟨ins, hm, hselect, rfl⟩
      have ⟨b, hread⟩ := exists_readAt hm
      have ⟨hposition, hb⟩ := exists_readAt_iff.mp ⟨ins, hm, rfl, hread⟩
      exact ⟨hposition, b, hb, (h b).mp (hread.op ▸ hselect)⟩
    case mpr =>
      rintro ⟨hposition, b, hb, hbytes⟩
      have ⟨ins, hm, hpc, hread⟩ := exists_readAt_iff.mpr ⟨hposition, hb⟩
      exact ⟨ins, hm, hread.op ▸ (h b).mpr hbytes, hpc⟩

theorem isJumpdest_decode_iff :
    (decode code).isJumpdest pc ↔ code[pc]? = some 0x5b ∧ CodePosition code pc := by
  simp only [isJumpdest_iff, (tiled_decode code).atPc?_eq_some_iff]
  constructor
  case mp =>
    rintro ⟨ins, ⟨hm, hpc⟩, hop⟩
    have ⟨b, hread⟩ := exists_readAt hm
    have ⟨hposition, hb⟩ := exists_readAt_iff.mp ⟨ins, hm, hpc, hread⟩
    obtain rfl := Opcode.ofByte_eq_jumpdest_iff.mp (hread.op.symm.trans hop)
    exact ⟨hb, hposition⟩
  case mpr =>
    rintro ⟨hb, hposition⟩
    have ⟨ins, hm, hpc, hread⟩ := exists_readAt_iff.mpr ⟨hposition, hb⟩
    exact ⟨ins, ⟨hm, hpc⟩, hread.op.trans (Opcode.ofByte_eq_jumpdest_iff.mpr rfl)⟩

structure Scans (code : List UInt8) (p : Program) : Prop where
  built     : Tables.build p = ⟨p.indexOf?, p.pushes, p.jumps, p.jumpdests⟩
  ascending : p.instructions.Pairwise (·.pc < ·.pc)
  positions : ∀ pc, (∃ ins ∈ p.instructions, ins.pc = pc) ↔ CodePosition code pc ∧ pc < code.length
  read      : ∀ ins ∈ p.instructions, ∃ b, ReadAt code ins b
  tiles     : p.instructions.flatMap (·.bytes) = code
  whole     : ∀ ins ∈ p.instructions.dropLast, ins.isTruncated = false
  index     : ∀ pc i, p.indexOf? pc = some i ↔ ∃ ins, p.get? i = some ins ∧ ins.pc = pc
  pushes    : Tabulates code (fun b => 0x5f ≤ b ∧ b ≤ 0x7f) p.pushes
  jumps     : Tabulates code (fun b => b = 0x56 ∨ b = 0x57) p.jumps
  jumpdests : Tabulates code (· = 0x5b) p.jumpdests
  jumpdest  : ∀ pc, p.isJumpdest pc ↔ code[pc]? = some 0x5b ∧ CodePosition code pc

-- Decoding finds exactly the instructions that a machine can come to, whatever bytes the immediates
-- hold. They cover the code without gaps, and all tables of a program are tables of them.
theorem decode_scans (code : List UInt8) : Scans code (decode code) where
  built := Tables.build_eq (List.pairwise_map.mp (laid_decodeFrom 0 code).pairwise)
  ascending := List.pairwise_map.mp (laid_decodeFrom 0 code).pairwise
  positions _ := exists_mem_decode_iff
  read _ := exists_readAt
  tiles := flatMap_bytes_decodeFrom 0 code
  whole _ := not_isTruncated_of_mem_dropLast
  index _ _ := (tiled_decode code).indexOf?_eq_some_iff
  pushes := tabulates_pcs fun _ => Opcode.isPush_ofByte
  jumps := tabulates_pcs fun _ => Opcode.isJump_ofByte
  jumpdests := tabulates_pcs fun _ => decide_eq_true_iff.trans Opcode.ofByte_eq_jumpdest_iff
  jumpdest _ := isJumpdest_decode_iff

section

variable {a : List UInt8}

theorem isJumpdest_append_of_lt (h : pc < a.length) (c : List UInt8) :
    (decode (a ++ c)).isJumpdest pc = (decode a).isJumpdest pc := by
  rw [isJumpdest, atPc?_append_of_lt h, Option.any_map]
  rfl

variable (hw : (decode a).Whole) (c : List UInt8)

include hw

theorem indexOf?_append (pc : Nat) :
    (decode (a ++ c)).indexOf? (a.length + pc) =
      ((decode c).indexOf? pc).map ((decode a).size + ·) := by
  have hnone : (decode a).instructions.findIdx? (·.pc = a.length + pc) = none := by
    refine List.findIdx?_eq_none_iff.mpr fun ins hm => decide_eq_false ?_
    have := pc_lt_of_mem_decodeFrom hm
    omega
  have hpc : ∀ ins : Instruction, (ins.shift a.length).pc = a.length + pc ↔ ins.pc = pc :=
    fun _ => Nat.add_left_cancel_iff
  simp only [indexOf?, instructions_append hw, List.findIdx?_append, hnone, Option.none_or,
    List.findIdx?_map, Function.comp_def, hpc, size, Nat.add_comm (decode a).instructions.length]

theorem pcs_append (select : Opcode → Bool) :
    (decode (a ++ c)).pcs select =
      (decode a).pcs select ++ ((decode c).pcs select).map (a.length + ·) := by
  simp only [pcs, instructions_append hw, List.filter_append, List.map_append, List.filter_map,
    List.map_map, Function.comp_def, Instruction.shift]

end

-- Cutting a code shortens its listing and nothing else, but for the immediate that is cut. Behind a
-- whole program the listing of a code goes on as it would alone, further up.
theorem decode_append (a c : List UInt8) :
    (decode (a ++ c)).instructions.filter (·.pc < a.length) =
        (decode a).instructions.map (·.complete c) ∧
      (∀ ins ∈ (decode a).instructions, ins.isTruncated = false → ins.complete c = ins) ∧
      (∀ ins ∈ (decode a).instructions.dropLast, ins.isTruncated = false) ∧
      (∀ pc < a.length, (decode (a ++ c)).isJumpdest pc = (decode a).isJumpdest pc) ∧
      ((decode a).Whole →
        (decode (a ++ c)).instructions =
            (decode a).instructions ++ (decode c).instructions.map (·.shift a.length) ∧
          (∀ pc, (decode (a ++ c)).indexOf? (a.length + pc) =
            ((decode c).indexOf? pc).map ((decode a).size + ·)) ∧
          (decode (a ++ c)).pushes = (decode a).pushes ++ (decode c).pushes.map (a.length + ·) ∧
          (decode (a ++ c)).jumps = (decode a).jumps ++ (decode c).jumps.map (a.length + ·) ∧
          (decode (a ++ c)).jumpdests =
            (decode a).jumpdests ++ (decode c).jumpdests.map (a.length + ·)) := by
  have hcut := filter_decodeFrom_append 0 a c
  rw [Nat.zero_add] at hcut
  refine ⟨hcut, fun _ _ h => Instruction.complete_of_not_isTruncated h c,
    fun _ => not_isTruncated_of_mem_dropLast, fun _ h => isJumpdest_append_of_lt h c, fun hw => ?_⟩
  exact ⟨instructions_append hw c, indexOf?_append hw c, pcs_append hw c _, pcs_append hw c _,
    pcs_append hw c _⟩

theorem decode_append_hidden :
    (decode [0x60, 0x5b, 0x56]).Whole ∧
      (decode ([0x60, 0x5b, 0x56] ++ [0x5b, 0x61, 0x5b])).instructions =
        [⟨0, .push 1, some [0x5b]⟩, ⟨2, .jump, none⟩, ⟨3, .jumpdest, none⟩,
          ⟨4, .push 2, some [0x5b]⟩] ∧
      (decode ([0x60, 0x5b, 0x56] ++ [0x5b, 0x61, 0x5b])).indexOf? (3 + 1) = some 3 ∧
      (decode ([0x60, 0x5b, 0x56] ++ [0x5b, 0x61, 0x5b])).indexOf? (3 + 2) = none ∧
      (decode ([0x60, 0x5b, 0x56] ++ [0x5b, 0x61, 0x5b])).pushes = [0, 4] ∧
      (decode ([0x60, 0x5b, 0x56] ++ [0x5b, 0x61, 0x5b])).jumps = [2] ∧
      (decode ([0x60, 0x5b, 0x56] ++ [0x5b, 0x61, 0x5b])).jumpdests = [3] ∧
      (decode ([0x61, 0x5b] ++ [0x5b, 0x56])).instructions.filter (·.pc < 2) =
        [⟨0, .push 2, some [0x5b, 0x5b]⟩] := by
  have hfront : decode [0x60, 0x5b, 0x56] = ⟨[⟨0, .push 1, some [0x5b]⟩, ⟨2, .jump, none⟩]⟩ := by
    cbv
  have hback : decode [0x5b, 0x61, 0x5b] =
      ⟨[⟨0, .jumpdest, none⟩, ⟨1, .push 2, some [0x5b]⟩]⟩ := by
    cbv
  have hw : (decode [0x60, 0x5b, 0x56]).Whole := by
    simp [hfront, Whole, Instruction.isTruncated, Opcode.width]
  obtain ⟨_, _, _, _, hjoined⟩ := decode_append [0x60, 0x5b, 0x56] [0x5b, 0x61, 0x5b]
  obtain ⟨hinstructions, hindex, hpushes, hjumps, hdests⟩ := hjoined hw
  have hsecond := hindex 1
  have hinside := hindex 2
  rw [hfront, hback] at hinstructions hsecond hinside hpushes hjumps hdests
  have hcut : decode [0x61, 0x5b] = ⟨[⟨0, .push 2, some [0x5b]⟩]⟩ := by cbv
  have hcompleted := (decode_append [0x61, 0x5b] [0x5b, 0x56]).1
  rw [hcut] at hcompleted
  exact ⟨hw, hinstructions, hsecond, hinside, hpushes, hjumps, hdests, hcompleted⟩

end Program

end Splice
