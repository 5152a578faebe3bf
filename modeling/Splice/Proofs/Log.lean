import Splice.Proofs.Refusal

namespace Splice

def Instruction.outline (ins : Instruction) : Nat × Opcode × Bool :=
  (ins.pc, ins.op, ins.isTruncated)

namespace Patcher

open Program

variable {code : List UInt8} {delta : Nat} {t t' : Patcher} {group : PushGroup}

theorem Checked.of_take {n : Nat} {target : Nat × Nat}
    (h : Checked (decode (code.take n)) target) : Checked (decode code) target := by
  obtain ⟨ins, hins, hpush, ht, hwidth⟩ := h
  have hat := atPc?_append hins ht (code.drop n)
  rw [List.take_append_drop] at hat
  exact ⟨ins, hat, hpush, ht, hwidth⟩

theorem Edits.congr {p : Program} {pcs : List Nat} (h : Edits p code t)
    (hpcs : ∀ pc, pc ∈ pcs ↔ pc ∈ t.patched) : Edits p code { t with patched := pcs } where
  length := h.length
  kept i hi := h.kept i fun pc hpc => hi pc ((hpcs pc).mpr hpc)
  raised pc hpc := h.raised pc ((hpcs pc).mp hpc)

theorem Raises.congr {front back : List UInt8} {pcs : List Nat} (h : Raises front back t)
    (hpcs : ∀ pc, pc ∈ pcs ↔ pc ∈ t.patched) : Raises front back { t with patched := pcs } where
  code := by
    have ⟨front', hcode, hlength, hdecode⟩ := h.code
    refine ⟨front', hcode, hlength, fun c => ?_⟩
    rw [hdecode c]
    exact raise_congr (fun pc => (hpcs pc).symm) _
  patched pc hpc := h.patched pc ((hpcs pc).mp hpc)

theorem apply_patched {pc : Nat} {pcs : List Nat} (hmem : pc ∉ t.patched) (hnew : pc ∉ pcs)
    (group : PushGroup) (width : Nat) :
    apply group pc width { t with patched := pcs } =
      (apply group pc width t).map id fun t' => { t' with patched := pc :: pcs } := by
  simp only [apply, if_neg hmem, if_neg hnew]
  split <;> rfl

theorem apply_cases {pc : Nat} (hmem : pc ∉ t.patched) (group : PushGroup) (width : Nat) :
    (∃ e, apply group pc width t = (.error e, { t with patched := pc :: t.patched })) ∨
      ∃ code patches, apply group pc width t =
        (.ok true, { t with code, patched := pc :: t.patched, patches }) := by
  simp only [apply, if_neg hmem]
  split
  case isTrue => exact .inr ⟨_, _, rfl⟩
  case isFalse => exact .inl ⟨_, rfl⟩

theorem widths_apply (group : PushGroup) (pc width : Nat) (t : Patcher) :
    (apply group pc width t).2.widths = t.widths := by
  have h := apply_widths group pc width t t.widths
  exact congrArg (·.2.widths) h

-- A patcher that counts as patched what its log lists. A push that was tried in vain is not listed.
def byLog (t : Patcher) : Patcher :=
  { t with patched := t.patches.map (·.pc) }

@[simp]
theorem mem_patched_byLog {pc : Nat} : pc ∈ t.byLog.patched ↔ ∃ e ∈ t.patches, e.pc = pc :=
  List.mem_map

structure Logs (code : List UInt8) (delta : Nat) (t : Patcher) : Prop where
  amount   : t.delta = delta
  edits    : Edits (decode code) code t.byLog
  raises   : Raises code [] t.byLog
  entries  : ∀ e ∈ t.patches, e = (decode code).patchAt e.group delta e.pc
  marked   : ∀ e ∈ t.patches, e.pc ∈ t.patched
  distinct : (t.patches.map (·.pc)).Nodup
  widths   : ∀ e ∈ t.patches, t.widths e.group = some e.width

theorem logs_start (delta : Nat) (code : List UInt8) : Logs code delta (start delta code) where
  amount   := rfl
  edits    := edits_start delta
  raises   := by
    have h : Raises code [] (start delta (code ++ [])) := raises_start delta
    rwa [List.append_nil] at h
  entries  := by simp [start]
  marked   := by simp [start]
  distinct := by simp [start]
  widths   := by simp [start]

theorem Logs.setWidth (h : Logs code delta t) (free : t.widths group = none) (width : Nat) :
    Logs code delta (t.setWidth group width) where
  amount   := h.amount
  edits    := ⟨h.edits.length, h.edits.kept, h.edits.raised⟩
  raises   := ⟨h.raises.code, h.raises.patched⟩
  entries  := h.entries
  marked   := h.marked
  distinct := h.distinct
  widths e he := by
    have hwidth := h.widths e he
    have hne : group ≠ e.group := by
      rintro rfl
      simp [free] at hwidth
    rwa [widths_setWidth_of_ne hne]

theorem Logs.checkAll (h : Logs code delta t) (p : Program) (group : PushGroup) (pcs : List Nat) :
    Logs code delta (Patcher.checkAll p group pcs t).2 := by
  rcases checkAll_cases p group pcs t with heq | ⟨_, _, width, _, _, free, heq⟩
  case inl =>
    rw [heq]
    exact h
  case inr =>
    rw [heq]
    exact h.setWidth free width

theorem Logs.mark (h : Logs code delta t) (pc : Nat) :
    Logs code delta { t with patched := pc :: t.patched } where
  amount   := h.amount
  edits    := h.edits
  raises   := h.raises
  entries  := h.entries
  marked   := fun e he => .tail _ (h.marked e he)
  distinct := h.distinct
  widths   := h.widths

theorem spells_decode (code : List UInt8) : (decode code).Spells code := by
  have h := spells_append code []
  rwa [List.append_nil] at h

theorem Logs.list (h : Logs code delta t) {code' : List UInt8} {pc width : Nat}
    {patches : List Patch} (hnew : pc ∉ t.byLog.patched) (hwidth : t.widths group = some width)
    (hentry : ((decode code).patchAt group delta pc).width = width)
    (hpatches : patches = t.patches ++ [(decode code).patchAt group delta pc])
    (hedits : Edits (decode code) code
      { t with code := code', patched := pc :: t.byLog.patched, patches })
    (hraises : Raises code []
      { t with code := code', patched := pc :: t.byLog.patched, patches }) :
    Logs code delta { t with code := code', patched := pc :: t.patched, patches } where
  amount   := h.amount
  edits    := hedits.congr fun q => by simp [byLog, hpatches, patchAt, or_comm]
  raises   := hraises.congr fun q => by simp [byLog, hpatches, patchAt, or_comm]
  entries  := by
    simp only [hpatches, List.forall_mem_append, List.forall_mem_singleton]
    exact ⟨h.entries, rfl⟩
  marked   := by
    simp only [hpatches, List.forall_mem_append, List.forall_mem_singleton]
    exact ⟨fun e he => .tail _ (h.marked e he), .head _⟩
  distinct := by
    rw [hpatches, List.map_append, List.nodup_append]
    refine ⟨h.distinct, by simp, fun q hq q' hq' => ?_⟩
    rw [List.map_singleton, List.mem_singleton] at hq'
    rintro rfl
    rw [hq'] at hq
    exact hnew hq
  widths   := by
    simp only [hpatches, List.forall_mem_append, List.forall_mem_singleton, hentry]
    exact ⟨h.widths, hwidth⟩

theorem Logs.apply (h : Logs code delta t) {pc width : Nat} (hc : Checked (decode code) (pc, width))
    (hfits : pc + 1 + width ≤ code.length) (hwidth : t.widths group = some width) :
    Logs code delta (apply group pc width t).2 := by
  by_cases hmem : pc ∈ t.patched
  case pos => simpa [Patcher.apply, hmem] using h
  case neg =>
    have hnew : pc ∉ t.byLog.patched := by
      rw [mem_patched_byLog]
      rintro ⟨e, he, rfl⟩
      exact hmem (h.marked e he)
    rcases apply_cases hmem group width with ⟨e, hresult⟩ | ⟨code', patches, hresult⟩
    case inl =>
      rw [hresult]
      exact h.mark pc
    case inr =>
      have hlisted : Patcher.apply group pc width t.byLog =
          (.ok true, { t with code := code', patched := pc :: t.byLog.patched, patches }) := by
        have := apply_patched hmem hnew group width
        rwa [hresult] at this
      obtain ⟨hedits, _, _, hpatches⟩ :=
        h.edits.apply (tiled_decode code) (spells_decode code) hc hfits hlisted
      obtain ⟨hraises, _⟩ := h.raises.apply hc hlisted
      have hpatches : patches = t.patches ++ [(decode code).patchAt group delta pc] := by
        have hdelta : t.byLog.delta = delta := h.amount
        have hfilter : [pc].filter (· ∉ t.byLog.patched) = [pc] := by simpa using hnew
        rw [hfilter, hdelta] at hpatches
        exact hpatches
      have hentry : ((decode code).patchAt group delta pc).width = width := by
        obtain ⟨ins, hins, _, _, hw, _⟩ := hc
        rw [patchAt_eq hins]
        exact hw
      rw [hresult]
      exact h.list hnew hwidth hentry hpatches hedits hraises

theorem Logs.applyAll (h : Logs code delta t) {targets : List (Nat × Nat)}
    (hc : ∀ target ∈ targets, Checked (decode code) target)
    (hfits : ∀ target ∈ targets, target.1 + 1 + target.2 ≤ code.length)
    (hwidth : ∀ target ∈ targets, t.widths group = some target.2) :
    Logs code delta (applyAll group targets t).2 := by
  induction targets generalizing t with
  | nil => exact h
  | cons target targets ih =>
    obtain ⟨hc, hcs⟩ := List.forall_mem_cons.mp hc
    obtain ⟨hfit, hfits⟩ := List.forall_mem_cons.mp hfits
    obtain ⟨hw, hwidths⟩ := List.forall_mem_cons.mp hwidth
    have h₁ := h.apply hc hfit hw
    have hsame := widths_apply group target.1 target.2 t
    simp only [Patcher.applyAll]
    split
    case h_1 happly => rwa [happly] at h₁
    case h_2 happly =>
      rw [happly] at h₁ hsame
      have h₂ := ih h₁ hcs hfits (hsame ▸ hwidths)
      split
      case h_1 hall => rwa [hall] at h₂
      case h_2 hall => rwa [hall] at h₂

theorem Logs.run (h : Logs code delta t) {c : Call} {n : Nat}
    (hc : c.program = decode (code.take n)) : Logs code delta (c.run t).2 := by
  have h₁ := h.checkAll c.program c.group c.pcs
  simp only [Call.run, patch]
  split
  case h_1 hall => rwa [hall] at h₁
  case h_2 targets t₁ hall =>
    rw [hall] at h₁
    have hpassed := (passed_of_checkAll hall).2
    refine h₁.applyAll (fun target ht => ?_) (fun target ht => ?_) hpassed.width
    · exact (hc ▸ hpassed.checked target ht).of_take
    · have hlength : t.code.length = code.length := h.edits.length
      exact hlength ▸ hpassed.fits target ht

def afterCalls : List Call → Patcher → Patcher
  | [], t => t
  | c :: cs, t => afterCalls cs (c.run t).2

theorem Logs.afterCalls (h : Logs code delta t) {calls : List Call}
    (hcalls : ∀ c ∈ calls, ∃ n, c.program = decode (code.take n)) :
    Logs code delta (afterCalls calls t) := by
  induction calls generalizing t with
  | nil => exact h
  | cons c calls ih =>
    obtain ⟨⟨n, hc⟩, hcs⟩ := List.forall_mem_cons.mp hcalls
    exact ih (h.run hc) hcs

-- What the log of a patcher tells of the code that it was started with. Nothing but the immediates
-- of the listed pushes has changed.
structure Told (code : List UInt8) (delta : Nat) (t : Patcher) : Prop where
  length   : t.code.length = code.length
  kept     : ∀ i, (∀ e ∈ t.patches, i ≤ e.pc ∨ e.pc + e.width < i) → t.code[i]? = code[i]?
  written  : ∀ e ∈ t.patches,
    window t.code e.pc e.width = BigEndian.bytes e.width (e.before + delta)
  pushes   : ∀ e ∈ t.patches, ∃ ins, (decode code).atPc? e.pc = some ins ∧
    ins.op = .push e.width ∧ ins.isTruncated = false
  narrow   : ∀ e ∈ t.patches, e.width = 1 ∨ e.width = 2
  before   : ∀ e ∈ t.patches, e.before = BigEndian.value (window code e.pc e.width)
  after    : ∀ e ∈ t.patches, e.after = e.before + delta ∧ e.after < BigEndian.bound e.width
  distinct : (t.patches.map (·.pc)).Nodup
  oneWidth : ∀ e ∈ t.patches, ∀ e' ∈ t.patches, e.group = e'.group → e.width = e'.width
  listing  : (decode t.code).instructions.map (·.outline) =
    (decode code).instructions.map (·.outline)

theorem Logs.exists_push (h : Logs code delta t) {e : Patch} (he : e ∈ t.patches) :
    ∃ ins, (decode code).atPc? e.pc = some ins ∧ ins.isTruncated = false ∧
      ins.op = .push e.width ∧ (e.width = 1 ∨ e.width = 2) ∧ e.pc + 1 + e.width ≤ code.length ∧
      e.before = ins.value ∧ e.after = ins.value + delta ∧
      BigEndian.value (window t.code e.pc e.width) = e.after := by
  have hpc : e.pc ∈ t.byLog.patched := List.mem_map_of_mem he
  have ⟨ins, hins, ⟨ins', hins', hpush, htrunc, _, hlow, hhigh⟩, hfits, hvalue⟩ :=
    h.edits.raised e.pc hpc
  rw [show t.byLog.delta = delta from h.amount] at hvalue
  cases hins.symm.trans hins'
  have hentry := h.entries e he
  rw [patchAt_eq hins] at hentry
  have hwidth : e.width = ins.op.width := congrArg Patch.width hentry
  have hbefore : e.before = ins.value := congrArg Patch.before hentry
  have hafter : e.after = ins.value + delta := congrArg Patch.after hentry
  rw [hwidth, hafter]
  exact ⟨ins, hins, htrunc, Opcode.eq_push_of_isPush hpush hlow, by omega, hfits, hbefore, rfl,
    hvalue⟩

theorem Logs.outline_eq (h : Logs code delta t) :
    (decode t.code).instructions.map (·.outline) =
      (decode code).instructions.map (·.outline) := by
  obtain ⟨front, hcode, _, hdecode⟩ := h.raises.code
  have hraised := hdecode []
  simp only [List.append_nil] at hcode hraised
  have hcode : t.code = front := hcode
  rw [hcode, hraised, raise, List.map_map]
  refine List.map_congr_left fun ins hm => ?_
  simp only [Function.comp_apply, Instruction.outline, Instruction.pc_raise, Instruction.op_raise,
    Prod.mk.injEq, true_and]
  -- What is raised had all of its immediate before, and it has all of it behind.
  by_cases hpc : ins.pc ∈ t.byLog.patched
  case neg => rw [Instruction.raise_of_not_mem hpc]
  case pos =>
    obtain ⟨ins', hins', _, htrunc, _⟩ := h.raises.patched _ hpc
    obtain rfl : ins = ins' := Option.some.inj
      (((tiled_decode code).atPc?_eq_some_iff.mpr ⟨hm, rfl⟩).symm.trans hins')
    rw [htrunc]
    simp [Instruction.raise, hpc, Instruction.withImmediate, Instruction.isTruncated]

theorem Logs.told (h : Logs code delta t) : Told code delta t where
  length := h.edits.length
  kept i hi := by
    refine h.edits.kept i fun pc hpc ⟨ins, hins, hlt, hle⟩ => ?_
    obtain ⟨e, he, rfl⟩ := List.mem_map.mp hpc
    obtain ⟨ins', hins', _, hop, _⟩ := h.exists_push he
    cases hins.symm.trans hins'
    have hwidth : ins.op.width = e.width := congrArg Opcode.width hop
    have hout := hi e he
    omega
  written e he := by
    obtain ⟨ins, _, _, _, _, hfits, hbefore, hafter, hvalue⟩ := h.exists_push he
    have hlength : t.code.length = code.length := h.edits.length
    rw [hbefore, ← hafter, ← hvalue, BigEndian.bytes_value (length_window (by omega))]
  pushes e he := by
    obtain ⟨ins, hins, htrunc, hop, _⟩ := h.exists_push he
    exact ⟨ins, hins, hop, htrunc⟩
  narrow e he := by
    obtain ⟨_, _, _, _, hnarrow, _⟩ := h.exists_push he
    exact hnarrow
  before e he := by
    obtain ⟨ins, hins, htrunc, hop, _, hfits, hbefore, _⟩ := h.exists_push he
    have hwidth : ins.op.width = e.width := congrArg Opcode.width hop
    have hspells := spells_decode code e.pc ins hins htrunc (hwidth ▸ hfits)
    rw [hbefore, ← hspells, hwidth]
  after e he := by
    obtain ⟨_, _, _, _, _, hfits, hbefore, hafter, hvalue⟩ := h.exists_push he
    have hlength : t.code.length = code.length := h.edits.length
    have hlt := BigEndian.value_lt (window t.code e.pc e.width)
    rw [hvalue, length_window (by omega)] at hlt
    exact ⟨hbefore ▸ hafter, hlt⟩
  distinct := h.distinct
  oneWidth e he e' he' hg := by
    have hw := h.widths e he
    have hw' := h.widths e' he'
    exact Option.some.inj (hw.symm.trans (hg ▸ hw'))
  listing := h.outline_eq

-- After any calls, whether they succeed or fail, the log of a patcher accounts for all that has
-- become of the code. The calls may go by different front parts of it.
theorem log_accounts_for_code {calls : List Call}
    (h : ∀ c ∈ calls, ∃ n, c.program = decode (code.take n)) (delta : Nat) :
    Told code delta (afterCalls calls (start delta code)) :=
  ((logs_start delta code).afterCalls h).told

theorem log_accounts_for_code_brimful :
    ∃ t, afterCalls [⟨decode brimful, .jump, [0, 2]⟩, ⟨decode (brimful.take 2), .codecopy, [0, 0]⟩]
        (start 2 brimful) = t ∧
      t.patches = [⟨.jump, 0, 1, 0x10, 0x12⟩] ∧ Told brimful 2 t := by
  refine ⟨_, rfl, ?_, log_accounts_for_code (fun c hc => ?_) 2⟩
  case refine_1 =>
    have hfront : decode (brimful.take 2) = ⟨[⟨0, .push 1, some [0x10]⟩]⟩ := by cbv
    simp only [afterCalls, Call.run, patch_brimful, hfront]
    rfl
  case refine_2 =>
    simp only [List.mem_cons, List.not_mem_nil, or_false] at hc
    rcases hc with rfl | rfl
    case inl => exact ⟨4, rfl⟩
    case inr => exact ⟨2, rfl⟩

end Patcher
end Splice
