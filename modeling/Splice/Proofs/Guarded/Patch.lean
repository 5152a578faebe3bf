import Splice.Patch
import Splice.Proofs.Guarded.Program
import Splice.Proofs.Rewriting

namespace Splice

namespace BigEndian

theorem bound_eq_two_pow (width : Nat) : bound width = 2 ^ (width * 8) := by
  induction width with
  | zero => rfl
  | succ width ih => rw [bound, ih, Nat.add_mul, Nat.pow_add, Nat.mul_comm]

theorem drop_bytes {m n : Nat} (h : m ≤ n) (v : Nat) : (bytes n v).drop (n - m) = bytes m v := by
  induction m generalizing n v with
  | zero => simp [bytes]
  | succ m ih =>
    obtain ⟨n, rfl⟩ : ∃ k, n = k + 1 := ⟨n - 1, by omega⟩
    have hle : m ≤ n := by omega
    rw [Nat.add_sub_add_right, bytes, List.drop_append_of_le_length, ih hle, bytes]
    rw [length_bytes]
    omega

end BigEndian

namespace Patcher

def Outcome.result : Outcome α → Except Error (α × Patcher)
  | (.ok a, t) => .ok (a, t)
  | (.error e, _) => .error e

section

variable {p : Program} {group : PushGroup} {t : Patcher}

theorem result_eq_ok_iff {o : Outcome α} {a : α} : o.result = .ok (a, t) ↔ o = (.ok a, t) := by
  obtain ⟨_ | _, _⟩ := o <;> simp [Outcome.result]

theorem settle_eq_map_result (o : Outcome α) : o.settle = o.result.map (·.2) := by
  obtain ⟨_ | _, _⟩ := o <;> rfl

theorem result_checkAll_cons (pc : Nat) (pcs : List Nat) :
    (checkAll p group (pc :: pcs) t).result =
      (check p group pc t).result >>= fun (width, t) =>
        (checkAll p group pcs t).result.map fun (targets, t) => ((pc, width) :: targets, t) := by
  simp only [checkAll]
  rcases check p group pc t with ⟨_ | width, t₁⟩
  case error => rfl
  case ok =>
    dsimp only
    rcases hall : checkAll p group pcs t₁ with ⟨_ | targets, t₂⟩
    all_goals
      simp only [Outcome.result, bind, Except.bind, hall, Except.map]

theorem result_applyAll_of_mem {pc : Nat} (h : pc ∈ t.patched) (width : Nat)
    (targets : List (Nat × Nat)) :
    (applyAll group ((pc, width) :: targets) t).result = (applyAll group targets t).result := by
  simp only [applyAll, apply, if_pos h]
  rcases applyAll group targets t with ⟨_ | count, t'⟩
  case error => rfl
  case ok => simp [Outcome.result]

theorem result_applyAll_of_not_mem {pc : Nat} (h : pc ∉ t.patched) (width : Nat)
    (targets : List (Nat × Nat)) :
    (applyAll group ((pc, width) :: targets) t).result =
      (apply group pc width t).result.map (·.2) >>= fun t =>
        (applyAll group targets t).result.map fun (count, t) => (1 + count, t) := by
  simp only [applyAll, apply, if_neg h]
  by_cases hlt : BigEndian.value ((t.code.drop (pc + 1)).take width) + t.delta <
      BigEndian.bound width
  case neg =>
    simp only [if_neg hlt]
    rfl
  case pos =>
    simp only [if_pos hlt]
    rcases hall : applyAll group targets _ with ⟨_ | count, t'⟩
    all_goals
      simp only [Outcome.result, bind, Except.bind, hall, Except.map, Bool.toNat_true]

theorem result_patch (pcs : List Nat) :
    (patch p group pcs t).result = (checkAll p group pcs t).result >>= fun (targets, t) =>
      (applyAll group targets t).result := by
  rw [patch]
  rcases checkAll p group pcs t with ⟨_ | targets, t₁⟩ <;> rfl

end

end Patcher

namespace Guarded

open Patcher (Outcome.result)

def endsBehind (code : List UInt8) (pc : Nat) (ins : Instruction) : Guarded Bool :=
  if ins.isTruncated then
    pure true
  else do
    let stop ← add (← add pc 1) ins.op.width
    return code.length < stop

def check (p : Program) (group : PushGroup) (pc : Nat) (t : Patcher) : Guarded (Nat × Patcher) := do
  match (← atPc? p pc).filter (·.op.isPush) with
  | none => throw (.missingPush pc)
  | some ins =>
    let width := ins.op.width
    if ← endsBehind t.code pc ins then
      throw (.truncatedPush pc)
    else if width < 1 ∨ 2 < width then
      throw (.unsupportedWidth group pc width)
    else
      match t.widths group with
      | none => return (width, t.setWidth group width)
      | some expected =>
        if expected = width then return (width, t)
        else throw (.inconsistentWidth group pc expected width)

def checkAll (p : Program) (group : PushGroup) :
    List Nat → Patcher → Guarded (List (Nat × Nat) × Patcher)
  | [], t => pure ([], t)
  | pc :: pcs, t => do
    let (width, t) ← check p group pc t
    let (targets, t) ← checkAll p group pcs t
    return ((pc, width) :: targets, t)

def fits (value width : Nat) : Guarded Bool :=
  if 8 ≤ width then
    pure true
  else do
    let rest ← shiftRight value (← mul width 8)
    return rest = 0

def overwrite (code : List UInt8) (start stop width n : Nat) : Guarded (List UInt8) := do
  let bytes := BigEndian.bytes 8 n
  let low ← slice bytes (← sub bytes.length width) bytes.length
  write code start stop low

-- The bits of the old number are shifted in, those over 64 would be lost.
def change (group : PushGroup) (pc width : Nat) (t : Patcher) : Guarded Patcher := do
  let start ← add pc 1
  let stop ← add start width
  let immediate ← slice t.code start stop
  let before := BigEndian.value immediate % usize
  let after ← add before t.delta
  if ← fits after width then
    let code ← overwrite t.code start stop width after
    return { t with code, patches := t.patches ++ [{ group, pc, width, before, after }] }
  else
    throw (.patchOverflow pc width before t.delta)

def applyAll (group : PushGroup) :
    List (Nat × Nat) → (count : Nat) → Patcher → Guarded (Nat × Patcher)
  | [], count, t => pure (count, t)
  | (pc, width) :: targets, count, t =>
    if pc ∈ t.patched then
      applyAll group targets count t
    else do
      let t ← change group pc width { t with patched := pc :: t.patched }
      let count ← add count 1
      applyAll group targets count t

def patch (p : Program) (group : PushGroup) (pcs : List Nat) (t : Patcher) :
    Guarded (Nat × Patcher) := do
  let (targets, t) ← checkAll p group pcs t
  applyAll group targets 0 t

def settle (g : Guarded (Nat × Patcher)) : Guarded Patcher := do
  return (← g).2

theorem fits_eq {value width : Nat} (h : width < 8) :
    fits value width = pure (decide (value < BigEndian.bound width)) := by
  have hwide : ¬8 ≤ width := by omega
  have husize : 64 < usize := by decide
  have hiff : value >>> (width * 8) = 0 ↔ value < BigEndian.bound width := by
    rw [Nat.shiftRight_eq_div_pow, BigEndian.bound_eq_two_pow, Nat.div_eq_zero_iff]
    have := Nat.two_pow_pos (width * 8)
    omega
  rw [fits, if_neg hwide, mul_eq (by omega), pure_bind, shiftRight_eq (by omega), pure_bind]
  simp only [hiff]

theorem overwrite_eq {code : List UInt8} {start width : Nat} (hw : width ≤ 8)
    (h : start + width ≤ code.length) (n : Nat) :
    overwrite code start (start + width) width n =
      pure (Patcher.overwrite code start (BigEndian.bytes width n)) := by
  have hlen : start + (BigEndian.bytes width n).length = start + width := by
    rw [BigEndian.length_bytes]
  simp only [overwrite]
  rw [BigEndian.length_bytes, sub_eq hw, pure_bind,
    slice_eq (Nat.sub_le ..) (Nat.le_of_eq (BigEndian.length_bytes ..).symm), pure_bind,
    List.take_of_length_le (Nat.le_of_eq (BigEndian.length_bytes ..)), BigEndian.drop_bytes hw,
    write_eq h hlen, Patcher.overwrite, hlen]

theorem endsBehind_eq {code : List UInt8} {pc : Nat} {ins : Instruction} (hpc : pc < bufferLimit)
    (hw : ins.op.width ≤ 32) : endsBehind code pc ins =
      pure (decide (ins.isTruncated ∨ code.length < pc + 1 + ins.op.width)) := by
  have husize : bufferLimit + 64 < usize := by decide
  rw [endsBehind]
  split
  case isTrue h => simp [h]
  case isFalse h =>
    rw [add_eq (by omega), pure_bind, add_eq (by omega), pure_bind]
    simp [h]

theorem check_safe {p : Program} (hp : p.Sized) {group : PushGroup} {pc : Nat}
    (hpush : ∃ n, p.Pushes pc n) (t : Patcher) :
    Safe (check p group pc t) (Patcher.check p group pc t).result fun _ => True := by
  obtain ⟨n, ins, hins, hop, -⟩ := hpush
  have hfound : (p.atPc? pc).filter (·.op.isPush) = some ins := by
    rw [hins]
    exact Option.filter_some_pos hop
  obtain ⟨hm, rfl⟩ := hp.tiled.atPc?_eq_some_iff.mp hins
  refine .after (atPc?_eq p ins.pc) ?_
  simp only [Patcher.check, hfound]
  refine .after (endsBehind_eq (hp.pcs ins hm) (hp.width_le hm)) ?_
  by_cases hbehind : ins.isTruncated ∨ t.code.length < ins.pc + 1 + ins.op.width
  case pos =>
    simp only [hbehind, decide_true, ↓reduceIte]
    exact .error rfl
  case neg =>
    simp only [hbehind, decide_false, Bool.false_eq_true, ↓reduceIte]
    by_cases hwidth : ins.op.width < 1 ∨ 2 < ins.op.width
    case pos =>
      simp only [hwidth, ↓reduceIte]
      exact .error rfl
    case neg =>
      simp only [hwidth, ↓reduceIte]
      cases t.widths group with
      | none => exact .ok trivial
      | some expected =>
        dsimp only
        split
        case isTrue => exact .ok trivial
        case isFalse => exact .error rfl

theorem map_bind_map_add {α β : Type} (x : Except Error α) (f : α → Except Error (Nat × β))
    (m n : Nat) :
    (x >>= fun a => (f a).map fun (k, b) => (m + k, b)).map (fun (k, b) => (n + k, b)) =
      x >>= fun a => (f a).map fun (k, b) => (n + m + k, b) := by
  cases x with
  | error => rfl
  | ok a => cases h : f a <;> simp [bind, Except.bind, h, Except.map, Nat.add_assoc]

section

variable {group : PushGroup} {t : Patcher} (hcode : t.code.length < bufferLimit)
  (hdelta : t.delta < bufferLimit)

include hcode hdelta

theorem change_safe {pc width : Nat} (hwidth : width ≤ 2) (hfits : pc + 1 + width ≤ t.code.length)
    (hnew : pc ∉ t.patched) :
    Safe (change group pc width { t with patched := pc :: t.patched })
      ((Patcher.apply group pc width t).result.map (·.2)) fun t' =>
        t'.code.length = t.code.length ∧ t'.delta = t.delta := by
  have hlen : ((t.code.drop (pc + 1)).take width).length = width := by
    rw [List.length_take, List.length_drop]
    omega
  have hbefore : BigEndian.value ((t.code.drop (pc + 1)).take width) < BigEndian.bound 2 := by
    have hlt := BigEndian.value_lt ((t.code.drop (pc + 1)).take width)
    rw [hlen] at hlt
    exact Nat.lt_of_lt_of_le hlt (BigEndian.bound_le_bound hwidth)
  have husize : bufferLimit + BigEndian.bound 2 < usize := by decide
  have hslice : slice t.code (pc + 1) (pc + 1 + width) =
      pure ((t.code.drop (pc + 1)).take width) := by
    rw [slice_eq (by omega) hfits, List.drop_take, Nat.add_sub_cancel_left]
  refine .after (add_eq (by omega)) (.after (add_eq (by omega)) (.after hslice ?_))
  simp only [Patcher.apply, if_neg hnew]
  generalize BigEndian.value ((t.code.drop (pc + 1)).take width) = before at *
  rw [Nat.mod_eq_of_lt (by omega)]
  refine .after (add_eq (by omega)) (.after (fits_eq (by omega)) ?_)
  by_cases hlt : before + t.delta < BigEndian.bound width
  case neg =>
    simp only [hlt, decide_false, Bool.false_eq_true, ↓reduceIte]
    exact .error rfl
  case pos =>
    simp only [hlt, decide_true, ↓reduceIte]
    refine .after (overwrite_eq (by omega) hfits _) (.ok ⟨?_, rfl⟩)
    exact Patcher.length_overwrite (by rwa [BigEndian.length_bytes])

theorem applyAll_safe {targets : List (Nat × Nat)}
    (hwidth : ∀ target ∈ targets, target.2 ≤ 2)
    (hfits : ∀ target ∈ targets, target.1 + 1 + target.2 ≤ t.code.length) {count : Nat}
    (hcount : count + targets.length < usize) :
    Safe (applyAll group targets count t)
      ((Patcher.applyAll group targets t).result.map fun (n, t) => (count + n, t)) fun (_, t') =>
        t'.code.length = t.code.length ∧ t'.delta = t.delta := by
  induction targets generalizing count t with
  | nil => exact .ok ⟨rfl, rfl⟩
  | cons target targets ih =>
    obtain ⟨pc, width⟩ := target
    have ⟨hw, hwidths⟩ := List.forall_mem_cons.mp hwidth
    have ⟨hfit, hfits⟩ := List.forall_mem_cons.mp hfits
    rw [List.length_cons] at hcount
    rw [applyAll]
    split
    case isTrue hmem =>
      rw [Patcher.result_applyAll_of_mem hmem]
      exact ih hcode hdelta hwidths hfits (by omega)
    case isFalse hnew =>
      rw [Patcher.result_applyAll_of_not_mem hnew]
      rw [map_bind_map_add]
      refine (change_safe hcode hdelta hw hfit hnew).bind fun t' _ ⟨hlen, hsame⟩ => ?_
      rw [← hlen] at hcode hfits ⊢
      rw [← hsame] at hdelta ⊢
      exact .after (add_eq (by omega)) (ih hcode hdelta hwidths hfits (by omega))

end

theorem checkAll_safe {p : Program} (hp : p.Sized) {group : PushGroup} {pcs : List Nat}
    (hpush : ∀ pc ∈ pcs, ∃ n, p.Pushes pc n) (t : Patcher) :
    Safe (checkAll p group pcs t) (Patcher.checkAll p group pcs t).result fun _ => True := by
  induction pcs generalizing t with
  | nil => exact .ok trivial
  | cons pc pcs ih =>
    obtain ⟨hpc, hpcs⟩ := List.forall_mem_cons.mp hpush
    rw [Patcher.result_checkAll_cons]
    exact (check_safe hp hpc t).bind fun out _ _ => (ih hpcs out.2).map fun _ _ _ => trivial

theorem patch_safe {p : Program} (hp : p.Sized) {group : PushGroup} {pcs : List Nat}
    (hpush : ∀ pc ∈ pcs, ∃ n, p.Pushes pc n) (hcount : pcs.length < usize) {t : Patcher}
    (hcode : t.code.length < bufferLimit) (hdelta : t.delta < bufferLimit) :
    Safe (settle (patch p group pcs t)) (Patcher.patch p group pcs t).settle fun t' =>
      t'.code.length = t.code.length ∧ t'.delta = t.delta := by
  have h : Safe (patch p group pcs t) (Patcher.patch p group pcs t).result fun (_, t') =>
      t'.code.length = t.code.length ∧ t'.delta = t.delta := by
    rw [Patcher.result_patch]
    refine (checkAll_safe hp hpush t).bind ?_
    rintro ⟨targets, t'⟩ hall -
    obtain ⟨rfl, hpassed⟩ := Patcher.passed_of_checkAll (Patcher.result_eq_ok_iff.mp hall)
    obtain ⟨widths, rfl⟩ := hpassed.same
    have hcount : 0 + targets.length < usize := by
      rwa [Nat.zero_add, ← List.length_map]
    have hwidth : ∀ target ∈ targets, target.2 ≤ 2 := by
      intro target hm
      obtain ⟨_, _, _, _, _, _, hle⟩ := hpassed.checked target hm
      exact hle
    have h : Safe (applyAll group targets 0 { t with widths }) _ _ :=
      applyAll_safe (t := { t with widths }) hcode hdelta hwidth hpassed.fits hcount
    have hzero : (Patcher.applyAll group targets { t with widths }).result.map
        (fun (n, t) => (0 + n, t)) = (Patcher.applyAll group targets { t with widths }).result := by
      cases (Patcher.applyAll group targets { t with widths }).result <;> simp [Except.map]
    rw [hzero] at h
    exact h
  rw [Patcher.settle_eq_map_result]
  exact h.map fun _ _ hpost => hpost

end Guarded
end Splice
