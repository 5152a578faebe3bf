import Mathlib.Tactic.ByContra
import Splice.Program

namespace Splice

namespace Instruction

def next (ins : Instruction) : Nat :=
  ins.pc + 1 + ins.op.width

def shift (distance : Nat) (ins : Instruction) : Instruction :=
  { ins with pc := distance + ins.pc }

def withImmediate (ins : Instruction) (bytes : List UInt8) : Instruction :=
  { ins with imm := some bytes }

-- An instruction with those bytes behind it that its immediate lacks, as far as there are any.
def complete (behind : List UInt8) (ins : Instruction) : Instruction :=
  { ins with imm := ins.imm.map (· ++ behind.take (ins.op.width - (ins.imm.getD []).length)) }

@[simp]
theorem immediate_shift (d : Nat) (ins : Instruction) : (ins.shift d).immediate = ins.immediate :=
  rfl

@[simp]
theorem value_shift (d : Nat) (ins : Instruction) : (ins.shift d).value = ins.value :=
  rfl

theorem immediate_withImmediate {ins : Instruction} {bytes : List UInt8}
    (h : bytes.length = ins.op.width) : (ins.withImmediate bytes).immediate = bytes := by
  simp [withImmediate, immediate, ← h]

theorem complete_of_not_isTruncated {ins : Instruction} (h : ins.isTruncated = false)
    (behind : List UInt8) : ins.complete behind = ins := by
  simp only [isTruncated, ne_eq, decide_not, Bool.not_eq_false', decide_eq_true_eq] at h
  simp [complete, h]

theorem value_lt (ins : Instruction) : ins.value < BigEndian.bound ins.op.width := by
  have := BigEndian.value_lt ins.immediate
  rwa [length_immediate] at this

end Instruction

namespace Opcode

theorem ofByte_cases (b : UInt8) :
    (∃ n < 32, ofByte b = push (n + 1)) ∨ (∃ n < 16, ofByte b = dup (n + 1)) ∨
      (∃ n < 16, ofByte b = swap (n + 1)) ∨ ofByte b ∈ named ∨ ofByte b = unknown b := by
  simp only [ofByte, UInt8.le_iff_toNat_le, UInt8.reduceToNat]
  split
  case isTrue => exact .inl ⟨b.toNat - 0x60, by omega, congrArg push (by omega)⟩
  split
  case isTrue => exact .inr (.inl ⟨b.toNat - 0x80, by omega, congrArg dup (by omega)⟩)
  split
  case isTrue => exact .inr (.inr (.inl ⟨b.toNat - 0x90, by omega, congrArg swap (by omega)⟩))
  cases h : named.find? (·.toByte = b) with
  | none => exact .inr (.inr (.inr (.inr rfl)))
  | some op => exact .inr (.inr (.inr (.inl (List.mem_of_find?_eq_some h))))

theorem width_ofByte_le (b : UInt8) : (ofByte b).width ≤ 32 := by
  rcases ofByte_cases b with ⟨n, hn, h⟩ | ⟨n, _, h⟩ | ⟨n, _, h⟩ | h | h
  case inl => exact h ▸ Nat.succ_le_of_lt hn
  case inr.inr.inr.inl =>
    have hnamed : ∀ op ∈ named, op.width = 0 := by decide
    exact hnamed _ h ▸ Nat.zero_le _
  all_goals exact h ▸ Nat.zero_le _

theorem arity_ofByte_le (b : UInt8) : (ofByte b).inputs ≤ 17 ∧ (ofByte b).outputs ≤ 17 := by
  have hnamed : ∀ op ∈ named, op.inputs ≤ 17 ∧ op.outputs ≤ 17 := by decide
  rcases ofByte_cases b with ⟨n, _, h⟩ | ⟨n, hn, h⟩ | ⟨n, hn, h⟩ | h | h
  case inl => exact h ▸ ⟨Nat.zero_le 17, show 1 ≤ 17 by decide⟩
  case inr.inl => exact h ▸ ⟨show n + 1 ≤ 17 by omega, show n + 2 ≤ 17 by omega⟩
  case inr.inr.inl => exact h ▸ ⟨show n + 2 ≤ 17 by omega, show n + 2 ≤ 17 by omega⟩
  case inr.inr.inr.inl => exact hnamed _ h
  case inr.inr.inr.inr => exact h ▸ ⟨Nat.zero_le 17, Nat.zero_le 17⟩

end Opcode

namespace Program

def Laid (pc : Nat) : List Instruction → Prop
  | [] => True
  | ins :: rest => ins.pc = pc ∧ Laid ins.next rest

namespace Laid

variable {pc : Nat} {l : List Instruction}

theorem le_pc (h : Laid pc l) {ins : Instruction} (hm : ins ∈ l) : pc ≤ ins.pc := by
  induction l generalizing pc with
  | nil => simp at hm
  | cons hd tl ih =>
    rcases List.mem_cons.mp hm with rfl | hm
    case inl => exact Nat.le_of_eq h.1.symm
    case inr =>
      have := ih h.2 hm
      have := h.1
      simp only [Instruction.next] at *
      omega

theorem pc_lt (h : Laid pc l) {ins : Instruction} (hm : ins ∈ l.tail) : pc < ins.pc := by
  cases l with
  | nil => simp at hm
  | cons hd tl =>
    have := h.2.le_pc hm
    have := h.1
    simp only [Instruction.next] at *
    omega

theorem pairwise (h : Laid pc l) : (l.map (·.pc)).Pairwise (· < ·) := by
  induction l generalizing pc with
  | nil => exact .nil
  | cons ins l ih =>
    refine List.pairwise_cons.mpr ⟨fun q hq => ?_, ih h.2⟩
    obtain ⟨ins', hm, rfl⟩ := List.mem_map.mp hq
    have hlt := h.pc_lt hm
    have hpc := h.1
    dsimp only
    omega

theorem find?_eq_some_iff (h : Laid pc l) {q : Nat} {ins : Instruction} :
    l.find? (·.pc = q) = some ins ↔ ins ∈ l ∧ ins.pc = q := by
  constructor
  case mp => exact fun hf => ⟨List.mem_of_find?_eq_some hf, by simpa using List.find?_some hf⟩
  case mpr =>
    rintro ⟨hm, rfl⟩
    induction l generalizing pc with
    | nil => simp at hm
    | cons hd tl ih =>
      rcases List.mem_cons.mp hm with rfl | hm
      case inl => simp
      case inr =>
        have := h.pc_lt hm
        have := h.1
        rw [List.find?_cons_of_neg (by simp; omega)]
        exact ih h.2 hm

theorem findIdx?_eq_some_iff (h : Laid pc l) {q i : Nat} :
    l.findIdx? (·.pc = q) = some i ↔ ∃ ins, l[i]? = some ins ∧ ins.pc = q := by
  induction l generalizing pc i with
  | nil => simp
  | cons hd tl ih =>
    rw [List.findIdx?_cons]
    by_cases hq : hd.pc = q
    case pos =>
      cases i with
      | zero => simp [hq]
      | succ i =>
        simp only [hq, decide_true, ↓reduceIte, Option.some.injEq, Nat.zero_ne_add_one, false_iff,
          List.getElem?_cons_succ, not_exists, not_and]
        intro ins hins
        have := h.pc_lt (List.mem_of_getElem? hins)
        have := h.1
        omega
    case neg => cases i <;> simp [hq, ih h.2]

theorem find?_next (h : Laid pc l) {i : Nat} {ins : Instruction} (hi : l[i]? = some ins) :
    l.find? (·.pc = ins.next) = l[i + 1]? := by
  induction l generalizing pc i with
  | nil => simp at hi
  | cons hd tl ih =>
    cases i with
    | zero =>
      obtain rfl : hd = ins := by simpa using hi
      have hne : hd.pc ≠ hd.next := by simp only [Instruction.next]; omega
      rw [List.find?_cons_of_neg (by simpa using hne), List.getElem?_cons_succ]
      cases tl with
      | nil => rfl
      | cons hd' tl => simp [h.2.1]
    | succ i =>
      have hi : tl[i]? = some ins := by simpa using hi
      have := h.pc_lt (List.mem_of_getElem? hi)
      have := h.1
      have hne : hd.pc ≠ ins.next := by simp only [Instruction.next]; omega
      rw [List.find?_cons_of_neg (by simpa using hne), List.getElem?_cons_succ]
      exact ih h.2 hi

end Laid

def read (pc : Nat) (b : UInt8) (rest : List UInt8) : Instruction where
  pc := pc
  op := .ofByte b
  imm := if (Opcode.ofByte b).width = 0 then none else some (rest.take (Opcode.ofByte b).width)

theorem decodeFrom_eq_read_cons (pc : Nat) (b : UInt8) (rest : List UInt8) :
    decodeFrom pc (b :: rest) =
      read pc b rest :: decodeFrom (read pc b rest).next (rest.drop (Opcode.ofByte b).width) :=
  decodeFrom_cons pc b rest

theorem getD_imm_read (pc : Nat) (b : UInt8) (rest : List UInt8) :
    (read pc b rest).imm.getD [] = rest.take (Opcode.ofByte b).width := by
  by_cases h : (Opcode.ofByte b).width = 0 <;> simp [read, h]

theorem isTruncated_read {pc : Nat} {b : UInt8} {rest : List UInt8} :
    (read pc b rest).isTruncated = false ↔ (Opcode.ofByte b).width ≤ rest.length := by
  simp only [Instruction.isTruncated, getD_imm_read, List.length_take, ne_eq, decide_not,
    Bool.not_eq_false', decide_eq_true_eq]
  simp only [read]
  omega

theorem read_append {pc : Nat} {b : UInt8} {rest : List UInt8}
    (h : (Opcode.ofByte b).width ≤ rest.length) (c : List UInt8) :
    read pc b (rest ++ c) = read pc b rest := by
  simp [read, List.take_append_of_le_length h]

theorem decodeFrom_cons_append {b : UInt8} {front : List UInt8}
    (h : front.length = (Opcode.ofByte b).width) (pc : Nat) (back : List UInt8) :
    decodeFrom pc (b :: (front ++ back)) =
      read pc b front :: decodeFrom (read pc b front).next back := by
  rw [decodeFrom_eq_read_cons, read_append (Nat.le_of_eq h.symm), ← h, List.drop_left]

theorem decodeFrom_induction {motive : Nat → List UInt8 → Prop} (nil : ∀ pc, motive pc [])
    (cons : ∀ pc b rest,
      motive (read pc b rest).next (rest.drop (Opcode.ofByte b).width) → motive pc (b :: rest))
    (pc : Nat) (code : List UInt8) : motive pc code :=
  decodeFrom.induct motive nil cons pc code

theorem exists_ofByte_of_mem_decodeFrom {pc : Nat} {code : List UInt8} {ins : Instruction}
    (h : ins ∈ decodeFrom pc code) : ∃ b, ins.op = .ofByte b := by
  induction pc, code using decodeFrom_induction with
  | nil pc => simp at h
  | cons pc b rest ih =>
    rw [decodeFrom_eq_read_cons] at h
    rcases List.mem_cons.mp h with rfl | hm
    case inl => exact ⟨b, rfl⟩
    case inr => exact ih hm

theorem laid_decodeFrom (pc : Nat) (code : List UInt8) : Laid pc (decodeFrom pc code) := by
  induction pc, code using decodeFrom_induction with
  | nil pc => simp [Laid]
  | cons pc b rest ih => exact decodeFrom_eq_read_cons .. ▸ ⟨rfl, ih⟩

def Tiled (p : Program) : Prop :=
  Laid 0 p.instructions

theorem tiled_decode (code : List UInt8) : (decode code).Tiled :=
  laid_decodeFrom 0 code

namespace Tiled

variable {p : Program}

theorem atPc?_eq_some_iff (h : p.Tiled) {pc : Nat} {ins : Instruction} :
    p.atPc? pc = some ins ↔ ins ∈ p.instructions ∧ ins.pc = pc :=
  h.find?_eq_some_iff

theorem indexOf?_eq_some_iff (h : p.Tiled) {pc i : Nat} :
    p.indexOf? pc = some i ↔ ∃ ins, p.get? i = some ins ∧ ins.pc = pc :=
  h.findIdx?_eq_some_iff

theorem atPc?_of_get? (h : p.Tiled) {i : Nat} {ins : Instruction} (hi : p.get? i = some ins) :
    p.atPc? ins.pc = some ins :=
  h.atPc?_eq_some_iff.mpr ⟨List.mem_of_getElem? hi, rfl⟩

theorem atPc?_zero (h : p.Tiled) : p.atPc? 0 = p.get? 0 := by
  obtain ⟨_ | ⟨ins, rest⟩⟩ := p
  case nil => rfl
  case cons => simp [atPc?, get?, h.1]

theorem atPc?_next (h : p.Tiled) {i : Nat} {ins : Instruction} (hi : p.get? i = some ins) :
    p.atPc? ins.next = p.get? (i + 1) :=
  h.find?_next hi

theorem pairwise_pcs (h : p.Tiled) (select : Opcode → Bool) :
    (p.pcs select).Pairwise (· < ·) := by
  have hsub := (List.filter_sublist (p := fun ins : Instruction => select ins.op)
    (l := p.instructions)).map (·.pc)
  exact (Laid.pairwise h).sublist hsub

theorem nodup_pcs (h : p.Tiled) (select : Opcode → Bool) : (p.pcs select).Nodup :=
  (h.pairwise_pcs select).imp Nat.ne_of_lt

end Tiled

theorem pc_of_atPc? {p : Program} {pc : Nat} {ins : Instruction} (h : p.atPc? pc = some ins) :
    ins.pc = pc := by
  simpa using List.find?_some h

theorem isJumpdest_iff {p : Program} {pc : Nat} :
    p.isJumpdest pc ↔ ∃ ins, p.atPc? pc = some ins ∧ ins.op = .jumpdest := by
  simp [isJumpdest, Option.any_eq_true]

theorem decodeFrom_shift (d pc : Nat) (code : List UInt8) :
    decodeFrom (d + pc) code = (decodeFrom pc code).map (·.shift d) := by
  induction pc, code using decodeFrom_induction with
  | nil pc => simp
  | cons pc b rest ih =>
    have hnext : (read (d + pc) b rest).next = d + (read pc b rest).next := by
      simp only [Instruction.next, read]
      omega
    rw [decodeFrom_eq_read_cons, decodeFrom_eq_read_cons, hnext, ih]
    rfl

def Whole (p : Program) : Prop :=
  ∀ ins ∈ p.instructions, ins.isTruncated = false

theorem decodeFrom_append {pc : Nat} {a : List UInt8}
    (h : ∀ ins ∈ decodeFrom pc a, ins.isTruncated = false) (c : List UInt8) :
    decodeFrom pc (a ++ c) = decodeFrom pc a ++ decodeFrom (pc + a.length) c := by
  induction pc, a using decodeFrom_induction with
  | nil pc => simp
  | cons pc b rest ih =>
    rw [decodeFrom_eq_read_cons] at h
    have hl := isTruncated_read.mp (h _ List.mem_cons_self)
    have hnext : (read pc b rest).next + (rest.drop (Opcode.ofByte b).width).length =
        pc + (b :: rest).length := by
      simp only [Instruction.next, read, List.length_drop, List.length_cons]
      omega
    rw [List.cons_append, decodeFrom_eq_read_cons, read_append hl,
      List.drop_append_of_le_length hl, ih fun _ hm => h _ (List.mem_cons_of_mem _ hm), hnext,
      decodeFrom_eq_read_cons, List.cons_append]

theorem instructions_append {a : List UInt8} (h : (decode a).Whole) (c : List UInt8) :
    (decode (a ++ c)).instructions =
      (decode a).instructions ++ (decode c).instructions.map (·.shift a.length) := by
  simp only [decode]
  rw [decodeFrom_append h, ← decodeFrom_shift, Nat.zero_add, Nat.add_zero]

theorem le_length_of_mem_decodeFrom_drop {pc w : Nat} {rest : List UInt8} {ins : Instruction}
    (h : ins ∈ decodeFrom pc (rest.drop w)) : w ≤ rest.length := by
  by_contra hlt
  rw [List.drop_eq_nil_of_le (by omega)] at h
  simp at h

theorem pc_lt_of_mem_decodeFrom {pc : Nat} {code : List UInt8} {ins : Instruction}
    (h : ins ∈ decodeFrom pc code) : ins.pc < pc + code.length := by
  induction pc, code using decodeFrom_induction with
  | nil pc => simp at h
  | cons pc b rest ih =>
    rw [decodeFrom_eq_read_cons] at h
    rcases List.mem_cons.mp h with rfl | hm
    case inl => simp [read]
    case inr =>
      have hlt := ih hm
      have hle := le_length_of_mem_decodeFrom_drop hm
      simp only [Instruction.next, read, List.length_drop] at hlt
      rw [List.length_cons]
      omega

theorem complete_read (pc : Nat) (b : UInt8) (rest c : List UInt8) :
    (read pc b rest).complete c = read pc b (rest ++ c) := by
  have hlack : (Opcode.ofByte b).width - (rest.take (Opcode.ofByte b).width).length =
      (Opcode.ofByte b).width - rest.length := by
    rw [List.length_take]
    omega
  simp only [Instruction.complete, getD_imm_read]
  simp only [read, hlack, List.take_append]
  split <;> rfl

-- Reading on behind the end of a code adds instructions, and at most completes the last one.
theorem filter_decodeFrom_append (pc : Nat) (a c : List UInt8) :
    (decodeFrom pc (a ++ c)).filter (·.pc < pc + a.length) =
      (decodeFrom pc a).map (·.complete c) := by
  induction pc, a using decodeFrom_induction with
  | nil pc =>
    simp only [List.nil_append, decodeFrom_nil, List.map_nil, List.filter_eq_nil_iff]
    intro ins hm
    have := (laid_decodeFrom pc c).le_pc hm
    simpa
  | cons pc b rest ih =>
    have hin : (read pc b (rest ++ c)).pc < pc + (b :: rest).length := by simp [read]
    rw [List.cons_append, decodeFrom_eq_read_cons, decodeFrom_eq_read_cons pc b rest,
      List.map_cons, complete_read, List.filter_cons_of_pos (by simpa using hin)]
    apply congrArg
    by_cases hle : (Opcode.ofByte b).width ≤ rest.length
    case pos =>
      have hlength : pc + (b :: rest).length =
          (read pc b rest).next + (rest.drop (Opcode.ofByte b).width).length := by
        simp only [Instruction.next, read, List.length_cons, List.length_drop]
        omega
      rw [List.drop_append_of_le_length hle, hlength]
      exact ih
    case neg =>
      -- The immediate reaches behind the end of the code, and all that is left stands behind it.
      have hrest : rest.drop (Opcode.ofByte b).width = [] :=
        List.drop_eq_nil_of_le (Nat.le_of_not_le hle)
      rw [hrest, decodeFrom_nil, List.map_nil, List.filter_eq_nil_iff]
      intro ins hm
      have := (laid_decodeFrom _ _).le_pc hm
      simp only [Instruction.next, read] at this
      simp only [List.length_cons, decide_eq_true_eq]
      omega

theorem atPc?_append_of_lt {code : List UInt8} {pc : Nat} (h : pc < code.length)
    (c : List UInt8) :
    (decode (code ++ c)).atPc? pc = ((decode code).atPc? pc).map (·.complete c) := by
  have hpc : ∀ ins : Instruction, (ins.pc < code.length ∧ ins.pc = pc) ↔ ins.pc = pc :=
    fun ins => ⟨And.right, fun he => ⟨he ▸ h, he⟩⟩
  have hfind := congrArg (List.find? (·.pc = pc)) (filter_decodeFrom_append 0 code c)
  simp only [Nat.zero_add, List.find?_filter, List.find?_map, decide_eq_true_eq, hpc] at hfind
  exact hfind

theorem exists_atPc?_append {code : List UInt8} {pc : Nat} {ins : Instruction}
    (h : (decode code).atPc? pc = some ins) (c : List UInt8) :
    ∃ ins', (decode (code ++ c)).atPc? pc = some ins' ∧ ins'.op = ins.op := by
  have ⟨hm, hpc⟩ := (tiled_decode code).atPc?_eq_some_iff.mp h
  have hlt : pc < code.length := by simpa [hpc] using pc_lt_of_mem_decodeFrom hm
  exact ⟨ins.complete c, by rw [atPc?_append_of_lt hlt, h, Option.map_some], rfl⟩

theorem atPc?_append {code : List UInt8} {pc : Nat} {ins : Instruction}
    (h : (decode code).atPc? pc = some ins) (ht : ins.isTruncated = false) (c : List UInt8) :
    (decode (code ++ c)).atPc? pc = some ins := by
  have ⟨hm, hpc⟩ := (tiled_decode code).atPc?_eq_some_iff.mp h
  have hlt : pc < code.length := by simpa [hpc] using pc_lt_of_mem_decodeFrom hm
  rw [atPc?_append_of_lt hlt, h, Option.map_some, Instruction.complete_of_not_isTruncated ht]

end Program
end Splice
