import Splice.Proofs.Landing
import Splice.Proofs.Layout

namespace Splice

theorem BigEndian.value_inj {as bs : List UInt8} (hl : as.length = bs.length)
    (h : value as = value bs) : as = bs := by
  have ha : bytes as.length (value as) = as := bytes_value rfl
  rw [← ha, h, hl, bytes_value rfl]

def window (code : List UInt8) (pc width : Nat) : List UInt8 :=
  (code.drop (pc + 1)).take width

section

variable {code code' : List UInt8} {pc width i : Nat}

theorem length_window (h : pc + 1 + width ≤ code.length) :
    (window code pc width).length = width := by
  rw [window, List.length_take, List.length_drop]
  omega

theorem getElem?_window (h : i < width) : (window code pc width)[i]? = code[pc + 1 + i]? := by
  rw [window, List.getElem?_take_of_lt h, List.getElem?_drop]

theorem window_congr (h : ∀ i, pc < i → i ≤ pc + width → code'[i]? = code[i]?) :
    window code' pc width = window code pc width := by
  refine List.ext_getElem? fun i => ?_
  by_cases hi : i < width
  case pos => rw [getElem?_window hi, getElem?_window hi, h _ (by omega) (by omega)]
  case neg =>
    have hle : ∀ code, (window code pc width).length ≤ i := fun code => by
      rw [window, List.length_take]
      omega
    rw [List.getElem?_eq_none (hle code'), List.getElem?_eq_none (hle code)]

theorem window_take {n : Nat} (h : pc + 1 + width ≤ n) :
    window (code.take n) pc width = window code pc width :=
  window_congr fun i _ hi => List.getElem?_take_of_lt (by omega)

end

namespace Patcher

variable {code bytes : List UInt8} {offset : Nat}

theorem getElem?_overwrite_of_out (h : offset + bytes.length ≤ code.length) {i : Nat}
    (hi : i < offset ∨ offset + bytes.length ≤ i) :
    (overwrite code offset bytes)[i]? = code[i]? := by
  have hl : (code.take offset).length = offset := by
    rw [List.length_take]
    omega
  rw [overwrite]
  rcases hi with hi | hi
  case inl =>
    rw [List.append_assoc, List.getElem?_append_left (by omega), List.getElem?_take_of_lt hi]
  case inr =>
    rw [List.getElem?_append_right (by rw [List.length_append]; omega), List.getElem?_drop,
      List.length_append, hl, Nat.add_sub_cancel' hi]

theorem window_overwrite {pc : Nat} (h : pc + 1 + bytes.length ≤ code.length) :
    window (overwrite code (pc + 1) bytes) pc bytes.length = bytes := by
  have hl : (code.take (pc + 1)).length = pc + 1 := by
    rw [List.length_take]
    omega
  rw [window, overwrite, List.append_assoc, List.drop_left' hl, List.take_left]

end Patcher

theorem Program.Laid.next_le {pc : Nat} {l : List Instruction} (h : Laid pc l)
    {ins ins' : Instruction} (hm : ins ∈ l) (hm' : ins' ∈ l) (hlt : ins.pc < ins'.pc) :
    ins.next ≤ ins'.pc := by
  induction l generalizing pc with
  | nil => simp at hm
  | cons hd tl ih =>
    rcases List.mem_cons.mp hm with rfl | htl
    case inl =>
      rcases List.mem_cons.mp hm' with rfl | htl'
      case inl => omega
      case inr => exact h.2.le_pc htl'
    case inr =>
      rcases List.mem_cons.mp hm' with rfl | htl'
      case inl =>
        have := h.pc_lt htl
        have := h.1
        omega
      case inr => exact ih h.2 htl htl'

theorem Opcode.eq_push_of_isPush {op : Opcode} (h : op.isPush) (hw : 0 < op.width) :
    op = .push op.width := by
  cases op <;> simp_all [isPush, width]

namespace Program

def InImmediate (p : Program) (pc i : Nat) : Prop :=
  ∃ ins, p.atPc? pc = some ins ∧ pc < i ∧ i ≤ pc + ins.op.width

theorem Tiled.eq_of_inImmediate {p : Program} (h : p.Tiled) {pc pc' i : Nat}
    (hi : p.InImmediate pc i) (hi' : p.InImmediate pc' i) : pc = pc' := by
  obtain ⟨ins, hins, hlt, hle⟩ := hi
  obtain ⟨ins', hins', hlt', hle'⟩ := hi'
  obtain ⟨hm, rfl⟩ := h.atPc?_eq_some_iff.mp hins
  obtain ⟨hm', rfl⟩ := h.atPc?_eq_some_iff.mp hins'
  by_contra hne
  rcases Nat.lt_or_gt_of_ne hne with hlt | hlt
  case inl =>
    have := Laid.next_le h hm hm' hlt
    simp only [Instruction.next] at this
    omega
  case inr =>
    have := Laid.next_le h hm' hm hlt
    simp only [Instruction.next] at this
    omega

def Spells (p : Program) (code : List UInt8) : Prop :=
  ∀ pc ins, p.atPc? pc = some ins → ins.isTruncated = false → pc + 1 + ins.op.width ≤ code.length →
    BigEndian.value (window code pc ins.op.width) = ins.value

theorem spells_append (front back : List UInt8) : (decode front).Spells (front ++ back) :=
  fun _ _ hins ht _ => (value_of_atPc? hins ht back).2

theorem spells_take (code : List UInt8) (n : Nat) : (decode code).Spells (code.take n) := by
  intro pc ins hins ht hle
  have hn : pc + 1 + ins.op.width ≤ n := by
    rw [List.length_take] at hle
    omega
  have := (value_of_atPc? hins ht []).2
  rwa [List.append_nil, ← window, ← window_take hn] at this

def patchAt (p : Program) (group : PushGroup) (delta pc : Nat) : Patch :=
  let width := ((p.atPc? pc).map (·.op.width)).getD 0
  let before := ((p.atPc? pc).map (·.value)).getD 0
  ⟨group, pc, width, before, before + delta⟩

theorem patchAt_eq {p : Program} {group : PushGroup} {delta pc : Nat} {ins : Instruction}
    (h : p.atPc? pc = some ins) :
    p.patchAt group delta pc = ⟨group, pc, ins.op.width, ins.value, ins.value + delta⟩ := by
  simp [patchAt, h]

def OneWidth (p : Program) (pcs : List Nat) : Prop :=
  ∃ width, ∀ pc ∈ pcs, ∃ ins, p.atPc? pc = some ins ∧ ins.op = .push width

end Program

-- Two codes are the same but for the pushes of a program at the given pcs: each of them has one or
-- two bytes that lie before `limit`, and pushes a number there that is larger by `delta`.
structure Raised (p : Program) (delta limit : Nat) (pcs : List Nat) (code code' : List UInt8) :
    Prop where
  length : code'.length = code.length
  kept   : ∀ i, (∀ pc ∈ pcs, ¬p.InImmediate pc i) → code'[i]? = code[i]?
  raised : ∀ pc ∈ pcs, ∃ ins, p.atPc? pc = some ins ∧ (ins.op = .push 1 ∨ ins.op = .push 2) ∧
    pc + 1 + ins.op.width ≤ limit ∧ BigEndian.value (window code pc ins.op.width) = ins.value ∧
    BigEndian.value (window code' pc ins.op.width) = ins.value + delta

theorem Raised.eq_of_zero {p : Program} {limit : Nat} {pcs : List Nat} {code code' : List UInt8}
    (h : Raised p 0 limit pcs code code') (hl : limit ≤ code.length) : code' = code := by
  refine List.ext_getElem? fun i => ?_
  by_cases hi : ∃ pc ∈ pcs, p.InImmediate pc i
  case neg => exact h.kept i fun pc hpc hin => hi ⟨pc, hpc, hin⟩
  case pos =>
    have ⟨pc, hpc, ins, hins, hlt, hle⟩ := hi
    have ⟨ins', hins', _, hlimit, hbefore, hafter⟩ := h.raised pc hpc
    cases hins.symm.trans hins'
    have hlen := h.length
    have hwindow : window code' pc ins.op.width = window code pc ins.op.width :=
      BigEndian.value_inj (by rw [length_window (by omega), length_window (by omega)])
        (hafter.trans hbefore.symm)
    have hget : pc + 1 + (i - (pc + 1)) = i := by omega
    have hi : i - (pc + 1) < ins.op.width := by omega
    rw [← hget, ← getElem?_window hi, hwindow, getElem?_window hi]

namespace Patcher

variable {p : Program} {code : List UInt8} {t t' : Patcher} {group : PushGroup}

-- What a patcher has made of a code, and what it has noted down of that.
structure Edits (p : Program) (code : List UInt8) (t : Patcher) : Prop where
  length : t.code.length = code.length
  kept   : ∀ i, (∀ pc ∈ t.patched, ¬p.InImmediate pc i) → t.code[i]? = code[i]?
  raised : ∀ pc ∈ t.patched, ∃ ins, p.atPc? pc = some ins ∧ Checked p (pc, ins.op.width) ∧
    pc + 1 + ins.op.width ≤ code.length ∧
    BigEndian.value (window t.code pc ins.op.width) = ins.value + t.delta

theorem edits_start (delta : Nat) : Edits p code (start delta code) where
  length := rfl
  kept   := fun _ _ => rfl
  raised := by simp [start]

section

variable (ht : p.Tiled) (hs : p.Spells code)

include ht hs

theorem Edits.before_eq (h : Edits p code t) {pc : Nat} {ins : Instruction}
    (hins : p.atPc? pc = some ins) (htrunc : ins.isTruncated = false)
    (hfits : pc + 1 + ins.op.width ≤ code.length) (hmem : pc ∉ t.patched) :
    BigEndian.value ((t.code.drop (pc + 1)).take ins.op.width) = ins.value := by
  have hfree : ∀ i, pc < i → i ≤ pc + ins.op.width → t.code[i]? = code[i]? := by
    intro i hlt hle
    refine h.kept i fun q hq hin => hmem ?_
    have hpc : pc = q := ht.eq_of_inImmediate ⟨ins, hins, hlt, hle⟩ hin
    exact hpc ▸ hq
  rw [← hs pc ins hins htrunc hfits, ← window, window_congr hfree]

theorem Edits.apply (h : Edits p code t) {target : Nat × Nat} (hc : Checked p target)
    (hfits : target.1 + 1 + target.2 ≤ code.length) {patched : Bool}
    (ha : apply group target.1 target.2 t = (.ok patched, t')) :
    Edits p code t' ∧ t'.delta = t.delta ∧ (∀ q, q ∈ t'.patched ↔ q = target.1 ∨ q ∈ t.patched) ∧
      t'.patches = t.patches ++
        ([target.1].filter (· ∉ t.patched)).map (p.patchAt group t.delta) := by
  obtain ⟨pc, _⟩ := target
  obtain ⟨ins, hins, _, htrunc, hw, _⟩ := id hc
  subst hw
  simp only [Patcher.apply] at ha
  split at ha
  case isTrue hmem =>
    cases ha
    refine ⟨h, rfl, fun q => ?_, by simp [hmem]⟩
    simpa using fun hq : q = pc => hq ▸ hmem
  case isFalse hmem =>
    rw [h.before_eq ht hs hins htrunc hfits hmem] at ha
    split at ha
    case isFalse => simp at ha
    case isTrue hlt =>
      cases ha
      have hb := BigEndian.length_bytes ins.op.width (ins.value + t.delta)
      have hin : pc + 1 + (BigEndian.bytes ins.op.width (ins.value + t.delta)).length ≤
          t.code.length := by
        rw [hb, h.length]
        exact hfits
      have hout {i : Nat} (hi : ¬p.InImmediate pc i) :
          (overwrite t.code (pc + 1) (BigEndian.bytes ins.op.width (ins.value + t.delta)))[i]? =
            t.code[i]? := by
        refine getElem?_overwrite_of_out hin ?_
        by_contra hno
        exact hi ⟨ins, hins, by omega, by omega⟩
      refine ⟨⟨?_, fun i hi => ?_, ?_⟩, rfl, by simp, ?_⟩
      · rw [length_overwrite hin, h.length]
      · obtain ⟨hpc, hi⟩ := List.forall_mem_cons.mp hi
        rw [hout hpc, h.kept i hi]
      · rintro q (_ | ⟨_, hq⟩)
        case head =>
          refine ⟨ins, hins, hc, hfits, ?_⟩
          have := window_overwrite hin
          rw [hb] at this
          rw [this, BigEndian.value_bytes_of_lt hlt]
        case tail =>
          obtain ⟨push, hpush, hchecked, hle, hvalue⟩ := h.raised q hq
          refine ⟨push, hpush, hchecked, hle, ?_⟩
          rw [← hvalue, window_congr fun i hlt hle => hout fun hin => hmem ?_]
          exact ht.eq_of_inImmediate hin ⟨push, hpush, hlt, hle⟩ ▸ hq
      · simp [hmem, Program.patchAt_eq hins]

theorem Edits.applyAll (h : Edits p code t) {targets : List (Nat × Nat)}
    (hc : ∀ target ∈ targets, Checked p target)
    (hfits : ∀ target ∈ targets, target.1 + 1 + target.2 ≤ code.length)
    (hnodup : (targets.map (·.1)).Nodup) {count : Nat}
    (ha : applyAll group targets t = (.ok count, t')) :
    Edits p code t' ∧ t'.delta = t.delta ∧
      (∀ q, q ∈ t'.patched ↔ q ∈ targets.map (·.1) ∨ q ∈ t.patched) ∧
      t'.patches = t.patches ++
        ((targets.map (·.1)).filter (· ∉ t.patched)).map (p.patchAt group t.delta) := by
  induction targets generalizing t count with
  | nil =>
    cases ha
    exact ⟨h, rfl, by simp, by simp⟩
  | cons target targets ih =>
    obtain ⟨hc, hcs⟩ := List.forall_mem_cons.mp hc
    obtain ⟨hfit, hfits⟩ := List.forall_mem_cons.mp hfits
    obtain ⟨hnew, hnodup⟩ := List.nodup_cons.mp hnodup
    simp only [Patcher.applyAll] at ha
    split at ha
    case h_1 => simp at ha
    case h_2 patched t₁ happly =>
      obtain ⟨h₁, hdelta, hpatched, hpatches⟩ := h.apply ht hs hc hfit happly
      split at ha
      case h_1 => simp at ha
      case h_2 count t₂ hall =>
        cases ha
        obtain ⟨h₂, hdelta', hpatched', hpatches'⟩ := ih h₁ hcs hfits hnodup hall
        refine ⟨h₂, hdelta'.trans hdelta, fun q => ?_, ?_⟩
        · rw [hpatched', hpatched]
          simp [or_assoc, or_left_comm]
        · -- The pushes are different ones, so the first is not in the way of the others.
          have hfilter : (targets.map (·.1)).filter (· ∉ t₁.patched) =
              (targets.map (·.1)).filter (· ∉ t.patched) := by
            refine List.filter_congr fun q hq => ?_
            have hne : q ≠ target.1 := by
              rintro rfl
              exact hnew hq
            simp [hpatched, hne]
          rw [hpatches', hpatches, hdelta, hfilter, List.append_assoc, ← List.map_append,
            ← List.filter_append, List.singleton_append, List.map_cons]

theorem Edits.patch (h : Edits p code t) {pcs : List Nat} (hnodup : pcs.Nodup)
    (hp : (patch p group pcs t).settle = .ok t') :
    Edits p code t' ∧ t'.delta = t.delta ∧ (∀ q, q ∈ t'.patched ↔ q ∈ pcs ∨ q ∈ t.patched) ∧
      t'.patches = t.patches ++ (pcs.filter (· ∉ t.patched)).map (p.patchAt group t.delta) ∧
      p.OneWidth pcs := by
  obtain ⟨targets, t₁, count, rfl, hpassed, ha⟩ := exists_of_patch hp
  have hwidth : p.OneWidth (targets.map (·.1)) := by
    refine ⟨(t₁.widths group).getD 0, fun q hq => ?_⟩
    obtain ⟨target, hm, rfl⟩ := List.mem_map.mp hq
    obtain ⟨ins, hins, hpush, _, hw, hlow, _⟩ := hpassed.checked target hm
    refine ⟨ins, hins, ?_⟩
    rw [hpassed.width target hm, Option.getD_some, ← hw]
    exact Opcode.eq_push_of_isPush hpush (by omega)
  have hfits : ∀ target ∈ targets, target.1 + 1 + target.2 ≤ code.length := by
    rw [← h.length]
    exact hpassed.fits
  obtain ⟨widths, rfl⟩ := hpassed.same
  have h₁ : Edits p code { t with widths } := ⟨h.length, h.kept, h.raised⟩
  obtain ⟨h₂, hdelta, hpatched, hpatches⟩ := h₁.applyAll ht hs hpassed.checked hfits hnodup ha
  exact ⟨h₂, hdelta, hpatched, hpatches, hwidth⟩

omit ht in
theorem Edits.raises (h : Edits p code t) {limit : Nat} {pcs : List Nat}
    (hpcs : ∀ pc, pc ∈ pcs ↔ pc ∈ t.patched)
    (hl : ∀ pc ins, p.atPc? pc = some ins → ins.isTruncated = false →
      pc + 1 + ins.op.width ≤ code.length → pc + 1 + ins.op.width ≤ limit) :
    Raised p t.delta limit pcs code t.code where
  length := h.length
  kept i hi := h.kept i fun pc hpc => hi pc ((hpcs pc).mpr hpc)
  raised pc hpc := by
    have ⟨ins, hins, hc, hfits, hvalue⟩ := h.raised pc ((hpcs pc).mp hpc)
    have ⟨ins', hins', hpush, htrunc, _, hlow, hhigh⟩ := hc
    cases hins.symm.trans hins'
    have hop := Opcode.eq_push_of_isPush hpush hlow
    refine ⟨ins, hins, ?_, hl pc ins hins htrunc hfits, hs pc ins hins htrunc hfits, hvalue⟩
    have hwidth : ins.op.width = 1 ∨ ins.op.width = 2 := by omega
    rcases hwidth with hw | hw
    case inl => exact .inl (hw ▸ hop)
    case inr => exact .inr (hw ▸ hop)

end

end Patcher

namespace Resolution

theorem pairwise_foldl_pcs {os : List Origin} {pcs : List Nat} (h : pcs.Pairwise (· < ·)) :
    (os.foldl (fun pcs o => insertAscending o.pc pcs) pcs).Pairwise (· < ·) := by
  induction os generalizing pcs with
  | nil => exact h
  | cons o os ih => exact ih (pairwise_insertAscending h)

theorem nodup_jumpOrigins (r : Resolution) : r.jumpOrigins.Nodup :=
  (pairwise_foldl_pcs .nil).imp Nat.ne_of_lt

theorem nodup_copyOrigins (r : Resolution) : r.copyOrigins.Nodup :=
  (pairwise_foldl_pcs .nil).imp Nat.ne_of_lt

end Resolution

section

variable {init deployed : List UInt8} {prelude : Prelude} {suffix : Nat} {out : Injection}

open Program

theorem spells_stripped (deployed : List UInt8) (suffix : Nat) :
    (stripped deployed suffix).Spells deployed := by
  have h := spells_append (deployed.take (deployed.length - suffix))
    (deployed.drop (deployed.length - suffix))
  rwa [List.take_append_drop] at h

theorem Injected.runtime_raised {t₁ t₂ t₃ : Patcher}
    (h : Injected init deployed prelude suffix out t₁ t₂ t₃) :
    Raised (stripped deployed suffix) prelude.size (deployed.length - suffix)
        out.resolution.patched deployed t₂.code ∧
      (stripped deployed suffix).OneWidth out.resolution.jumpOrigins ∧
      (stripped deployed suffix).OneWidth out.resolution.copyOrigins ∧
      t₂.patches =
        out.resolution.jumpOrigins.map ((stripped deployed suffix).patchAt .jump prelude.size) ++
        (out.resolution.copyOrigins.filter (· ∉ out.resolution.jumpOrigins)).map
          ((stripped deployed suffix).patchAt .codecopy prelude.size) := by
  have ht : (stripped deployed suffix).Tiled := tiled_decode _
  have hs := spells_stripped deployed suffix
  have ⟨h₁, hdelta₁, hpatched₁, hpatches₁, hjumps⟩ :=
    (Patcher.edits_start prelude.size).patch ht hs (Resolution.nodup_jumpOrigins _) h.jumps
  have ⟨h₂, hdelta₂, hpatched₂, hpatches₂, hcopies⟩ :=
    h₁.patch ht hs (Resolution.nodup_copyOrigins _) h.copies
  have hdelta : t₁.delta = prelude.size := hdelta₁
  have hmem₁ : ∀ pc, pc ∈ t₁.patched ↔ pc ∈ out.resolution.jumpOrigins := by
    simp [hpatched₁, Patcher.start]
  have hmem₂ : ∀ pc, pc ∈ out.resolution.patched ↔ pc ∈ t₂.patched := by
    intro pc
    rw [hpatched₂, hmem₁, Resolution.patched, List.mem_append, or_comm]
  refine ⟨?_, hjumps, hcopies, ?_⟩
  · rw [← hdelta, ← hdelta₂]
    refine h₂.raises hs hmem₂ fun pc ins hins htrunc _ => ?_
    have := (value_of_atPc? hins htrunc []).1
    rw [List.length_take] at this
    omega
  · simp [hpatches₂, hpatches₁, hmem₁, hdelta, Patcher.start]

theorem Injected.front_raised {t₁ t₂ t₃ : Patcher}
    (h : Injected init deployed prelude suffix out t₁ t₂ t₃) :
    Raised (decode init) prelude.size out.layout.runtimeOffset [out.layout.lengthPc]
        (init.take out.layout.runtimeOffset) t₃.code ∧
      t₃.patches = [(decode init).patchAt .length prelude.size out.layout.lengthPc] := by
  have hs := spells_take init out.layout.runtimeOffset
  have ⟨h₃, hdelta, hpatched, hpatches, _⟩ :=
    (Patcher.edits_start prelude.size).patch (tiled_decode init) hs (by simp)
      h.length
  have hdelta : t₃.delta = prelude.size := hdelta
  refine ⟨?_, by simpa [Patcher.start] using hpatches⟩
  rw [← hdelta]
  refine h₃.raises hs (fun pc => ?_) fun pc ins _ _ hfits => ?_
  · rw [hpatched]
    simp [Patcher.start]
  · rw [List.length_take] at hfits
    omega

theorem Injected.length_front {t₁ t₂ t₃ : Patcher}
    (h : Injected init deployed prelude suffix out t₁ t₂ t₃) :
    (init.take out.layout.runtimeOffset).length = out.layout.runtimeOffset := by
  have ⟨_, _, _, _, hle, _⟩ := Layout.locate_eq_ok_iff.mp h.located
  exact List.length_take_of_le hle

theorem Injected.eq_of_nil {t₁ t₂ t₃ : Patcher}
    (h : Injected init deployed prelude suffix out t₁ t₂ t₃) (hnil : prelude.bytes = []) :
    out.initCode = init ∧ out.runtimeCode = deployed := by
  have hzero : prelude.size = 0 := by simp [Prelude.size, hnil]
  have hruntime := h.runtime_raised.1
  have hfront := h.front_raised.1
  rw [hzero] at hruntime hfront
  have hruntime := hruntime.eq_of_zero (Nat.sub_le ..)
  have hfront := hfront.eq_of_zero (Nat.le_of_eq h.length_front.symm)
  rw [h.initCode, h.runtimeCode, hruntime, hfront, hnil]
  exact ⟨by simpa using (Layout.eq_append_of_locate h.located).symm, rfl⟩

-- An injection puts the prelude in and raises the offsets that it has to raise, in place, once
-- each. It leaves every other byte alone, and it lists what it changes.
theorem rewrites_offsets_only (h : inject init deployed prelude suffix = .ok out) :
    ∃ front runtime,
      out.initCode = front ++ out.runtimeCode ∧ out.runtimeCode = prelude.bytes ++ runtime ∧
      suffix ≤ deployed.length ∧
      Raised (stripped deployed suffix) prelude.size (deployed.length - suffix)
        (out.resolution.jumpOrigins ++ out.resolution.copyOrigins) deployed runtime ∧
      (stripped deployed suffix).OneWidth out.resolution.jumpOrigins ∧
      (stripped deployed suffix).OneWidth out.resolution.copyOrigins ∧
      front.length = out.layout.runtimeOffset ∧
      Raised (decode init) prelude.size out.layout.runtimeOffset [out.layout.lengthPc]
        (init.take out.layout.runtimeOffset) front ∧
      (∃ ins, (decode init).atPc? out.layout.lengthPc = some ins ∧
        BigEndian.value (window front out.layout.lengthPc ins.op.width) =
          out.layout.runtimeLength + prelude.size) ∧
      out.patches =
        out.resolution.jumpOrigins.map ((stripped deployed suffix).patchAt .jump prelude.size) ++
        (out.resolution.copyOrigins.filter (· ∉ out.resolution.jumpOrigins)).map
          ((stripped deployed suffix).patchAt .codecopy prelude.size) ++
        [(decode init).patchAt .length prelude.size out.layout.lengthPc] ∧
      out.resolution.jumpOrigins.Nodup ∧ out.resolution.copyOrigins.Nodup ∧
      (prelude.bytes = [] → out.initCode = init ∧ out.runtimeCode = deployed) := by
  have ⟨t₁, t₂, t₃, hi⟩ := injected_of_inject h
  have ⟨hruntime, hjumps, hcopies, hpatches⟩ := hi.runtime_raised
  have ⟨hfront, hpatches'⟩ := hi.front_raised
  refine ⟨t₃.code, t₂.code, ?_, hi.runtimeCode, hi.fits, hruntime, hjumps, hcopies,
    hfront.length.trans hi.length_front, hfront, ?_, ?_, Resolution.nodup_jumpOrigins _,
    Resolution.nodup_copyOrigins _, hi.eq_of_nil⟩
  · rw [hi.initCode, hi.runtimeCode, List.append_assoc]
  · have ⟨ins, hins, _, hlength⟩ := Layout.exists_length_of_locate hi.located
    have ⟨ins', hins', hop, _, _, hafter⟩ := hfront.raised _ List.mem_cons_self
    cases hins.symm.trans hins'
    have hw : ins.op.width ≤ 8 := by
      rcases hop with hop | hop <;> simp [hop, Opcode.width]
    have hlt := Nat.lt_of_lt_of_le ins.value_lt (BigEndian.bound_le_bound hw)
    rw [Instruction.offset?_of_lt hlt] at hlength
    exact ⟨ins, hins, hlength ▸ hafter⟩
  · rw [hi.patches, hpatches, hpatches']

end

theorem rewrites_offsets_only_hop :
    ∃ out, inject hopInit hop ⟨[0x60, 0x00, 0x50]⟩ 2 = .ok out ∧
      ∃ front, out.initCode = front ++ [0x60, 0x00, 0x50, 0x60, 0x06, 0x56, 0x5b, 0xa2, 0x61] ∧
        front.length = out.layout.runtimeOffset ∧
        Raised (.decode hopInit) 3 out.layout.runtimeOffset [out.layout.lengthPc]
          (hopInit.take out.layout.runtimeOffset) front := by
  have ⟨out, h, hout, _⟩ := inject_hop
  have ⟨front, _, hinit, _, _, _, _, _, hlength, hfront, _⟩ := rewrites_offsets_only h
  exact ⟨out, h, front, hout ▸ hinit, hlength, hfront⟩

end Splice
