import Splice.Proofs.Rewriting

namespace Splice.Patcher

variable {p : Program} {group g : PushGroup} {pc width : Nat} {pcs : List Nat}
  {targets : List (Nat × Nat)} {t t' : Patcher} {e : Error}

theorem setWidth_of_width (h : t.widths group = some width) : t.setWidth group width = t := by
  have hwidths : (fun g => if g = group then some width else t.widths g) = t.widths := by
    funext g
    split <;> simp_all
  simp only [setWidth, hwidths]

theorem setWidth_comm (h : g ≠ group) (w : Nat) :
    (t.setWidth g w).setWidth group width = (t.setWidth group width).setWidth g w := by
  simp only [setWidth, mk.injEq, and_true, true_and]
  funext g'
  by_cases hg : g' = g
  · simp [hg, h]
  · simp [hg]

@[simp]
theorem widths_setWidth (t : Patcher) (group : PushGroup) (width : Nat) :
    (t.setWidth group width).widths group = some width :=
  if_pos rfl

@[simp]
theorem code_setWidth (t : Patcher) (group : PushGroup) (width : Nat) :
    (t.setWidth group width).code = t.code :=
  rfl

theorem widths_setWidth_of_ne (h : g ≠ group) :
    (t.setWidth g width).widths group = t.widths group :=
  if_neg h.symm

def examine (p : Program) (group : PushGroup) (pc size : Nat) : Except Error Nat :=
  match (p.atPc? pc).filter (·.op.isPush) with
  | none => .error (.missingPush pc)
  | some ins =>
    if ins.isTruncated ∨ size < pc + 1 + ins.op.width then .error (.truncatedPush pc)
    else if ins.op.width < 1 ∨ 2 < ins.op.width then
      .error (.unsupportedWidth group pc ins.op.width)
    else .ok ins.op.width

theorem check_eq_examine (p : Program) (group : PushGroup) (pc : Nat) (t : Patcher) :
    check p group pc t =
      match examine p group pc t.code.length with
      | .error e => (.error e, t)
      | .ok width =>
        match t.widths group with
        | none => (.ok width, t.setWidth group width)
        | some expected =>
          if expected = width then (.ok width, t)
          else (.error (.inconsistentWidth group pc expected width), t) := by
  simp only [check, examine]
  cases (p.atPc? pc).filter (·.op.isPush) with
  | none => rfl
  | some ins =>
    simp only
    split
    · rfl
    · split <;> rfl

theorem examine_of_checked {size : Nat} (h : Checked p (pc, width))
    (hfits : pc + 1 + width ≤ size) (group : PushGroup) :
    examine p group pc size = .ok width := by
  obtain ⟨ins, hins, hpush, ht, rfl, hlow, hhigh⟩ := h
  have hcut : ¬(ins.isTruncated ∨ size < pc + 1 + ins.op.width) := by
    simp only [ht, Bool.false_eq_true, false_or]
    omega
  have hwidth : ¬(ins.op.width < 1 ∨ 2 < ins.op.width) := by omega
  simp only [examine, hins, Option.filter_some, hpush, if_pos, if_neg hcut, if_neg hwidth]

theorem check_cases (p : Program) (group : PushGroup) (pc : Nat) (t : Patcher) :
    (∃ e, check p group pc t = (.error e, t)) ∨
      ∃ width, (t.widths group = none ∨ t.widths group = some width) ∧
        check p group pc t = (.ok width, t.setWidth group width) := by
  rw [check_eq_examine]
  split
  case h_1 e _ => exact .inl ⟨e, rfl⟩
  case h_2 width _ =>
    split
    case h_1 hnone => exact .inr ⟨width, .inl hnone, rfl⟩
    case h_2 expected hsome =>
      split
      case isTrue heq =>
        have hwidth : t.widths group = some width := heq ▸ hsome
        exact .inr ⟨width, .inr hwidth, by rw [setWidth_of_width hwidth]⟩
      case isFalse => exact .inl ⟨_, rfl⟩

theorem eq_of_check_error (h : check p group pc t = (.error e, t')) : t' = t := by
  rcases check_cases p group pc t with ⟨_, hc⟩ | ⟨_, _, hc⟩ <;> cases hc.symm.trans h
  rfl

theorem eq_of_check_ok (h : check p group pc t = (.ok width, t')) :
    t' = t.setWidth group width := by
  rcases check_cases p group pc t with ⟨_, hc⟩ | ⟨_, _, hc⟩ <;> cases hc.symm.trans h
  rfl

theorem checkAll_of_width (h : t.widths group = some width) : (checkAll p group pcs t).2 = t := by
  induction pcs with
  | nil => rfl
  | cons pc pcs ih =>
    rcases check_cases p group pc t with ⟨e, hc⟩ | ⟨w, hwidth, hc⟩
    case inl => simp only [checkAll, hc]
    case inr =>
      obtain rfl : w = width := by simpa [h, eq_comm] using hwidth
      rw [setWidth_of_width h] at hc
      simp only [checkAll, hc]
      split <;> simp_all

theorem checkAll_cases (p : Program) (group : PushGroup) (pcs : List Nat) (t : Patcher) :
    (checkAll p group pcs t).2 = t ∨
      ∃ pc rest width, pcs = pc :: rest ∧ Checked p (pc, width) ∧ t.widths group = none ∧
        (checkAll p group pcs t).2 = t.setWidth group width := by
  rcases pcs with _ | ⟨pc, pcs⟩
  case nil => exact .inl rfl
  case cons =>
    rcases check_cases p group pc t with ⟨e, hc⟩ | ⟨width, hnone | hsome, hc⟩
    case inl => exact .inl (by simp only [checkAll, hc])
    case inr.inl =>
      have hchecked := (passed_of_check hc).checked _ (List.mem_singleton_self _)
      have hall : (checkAll p group pcs (t.setWidth group width)).2 = t.setWidth group width :=
        checkAll_of_width (widths_setWidth t group width)
      refine .inr ⟨pc, pcs, width, rfl, hchecked, hnone, ?_⟩
      simp only [checkAll, hc]
      split <;> simp_all
    case inr.inr => exact .inl (checkAll_of_width hsome)

theorem exists_of_checkAll_error (h : checkAll p group pcs t = (.error e, t')) :
    ∃ pc ∈ pcs, check p group pc t' = (.error e, t') := by
  induction pcs generalizing t with
  | nil => simp [checkAll] at h
  | cons pc pcs ih =>
    simp only [checkAll] at h
    split at h
    case h_1 hc =>
      cases h
      obtain rfl := eq_of_check_error hc
      exact ⟨pc, by simp, hc⟩
    case h_2 hc =>
      split at h
      case h_1 hall =>
        cases h
        obtain ⟨pc, hpc, herror⟩ := ih hall
        exact ⟨pc, .tail _ hpc, herror⟩
      case h_2 => simp at h

theorem exists_of_checkAll_cons (h : checkAll p group pcs t = (.ok ((pc, width) :: targets), t')) :
    ∃ rest t₁, pcs = pc :: rest ∧ check p group pc t = (.ok width, t₁) ∧
      checkAll p group rest t₁ = (.ok targets, t') := by
  rcases pcs with _ | ⟨pc, rest⟩
  case nil => simp [checkAll] at h
  case cons =>
    simp only [checkAll] at h
    split at h
    case h_1 => simp at h
    case h_2 hc =>
      split at h
      case h_1 => simp at h
      case h_2 hall =>
        cases h
        exact ⟨rest, _, rfl, hc, hall⟩

theorem exists_of_checkAll_append {done : List (Nat × Nat)}
    (h : checkAll p group pcs t = (.ok (done ++ (pc, width) :: targets), t')) :
    ∃ rest t₁, pcs = done.map (·.1) ++ pc :: rest ∧
      checkAll p group (done.map (·.1)) t = (.ok done, t₁) ∧ t' = t₁.setWidth group width := by
  induction done generalizing pcs t with
  | nil =>
    have ⟨rest, t₁, hpcs, hc, hall⟩ := exists_of_checkAll_cons h
    obtain rfl := eq_of_check_ok hc
    have hsame : (checkAll p group rest (t.setWidth group width)).2 = t.setWidth group width :=
      checkAll_of_width (widths_setWidth t group width)
    exact ⟨rest, t, hpcs, rfl, by rw [← hsame, hall]⟩
  | cons target done ih =>
    have ⟨_, _⟩ := target
    have ⟨rest, t₁, hpcs, hc, hall⟩ := exists_of_checkAll_cons h
    have ⟨back, t₂, hrest, hdone, hsame⟩ := ih hall
    refine ⟨back, t₂, by rw [hpcs, hrest]; rfl, ?_, hsame⟩
    simp only [List.map_cons, checkAll, hc, hdone]

theorem apply_widths (group : PushGroup) (pc width : Nat) (t : Patcher)
    (widths : PushGroup → Option Nat) :
    apply group pc width { t with widths } =
      (apply group pc width t).map id fun t => { t with widths } := by
  simp only [apply]
  by_cases hmem : pc ∈ t.patched
  case pos => simp [hmem]
  case neg =>
    simp only [if_neg hmem]
    split <;> rfl

theorem applyAll_widths (group : PushGroup) (targets : List (Nat × Nat)) (t : Patcher)
    (widths : PushGroup → Option Nat) :
    applyAll group targets { t with widths } =
      (applyAll group targets t).map id fun t => { t with widths } := by
  induction targets generalizing t with
  | nil => rfl
  | cons target targets ih =>
    simp only [applyAll, apply_widths]
    rcases apply group target.1 target.2 t with ⟨_ | _, t₁⟩
    · rfl
    · simp only [Prod.map, id, ih]
      rcases applyAll group targets t₁ with ⟨_ | _, t₂⟩ <;> rfl

theorem widths_applyAll (group : PushGroup) (targets : List (Nat × Nat)) (t : Patcher) :
    (applyAll group targets t).2.widths = t.widths := by
  have h := applyAll_widths group targets t t.widths
  exact congrArg (·.2.widths) h

theorem applyAll_setWidth (g : PushGroup) (targets : List (Nat × Nat)) (t : Patcher)
    (group : PushGroup) (width : Nat) :
    applyAll g targets (t.setWidth group width) =
      (applyAll g targets t).map id (·.setWidth group width) := by
  have h := applyAll_widths g targets t (t.setWidth group width).widths
  simp only [setWidth] at h ⊢
  rw [h, Prod.map, Prod.map, widths_applyAll]

theorem exists_of_applyAll_error (h : applyAll group targets t = (.error e, t')) :
    ∃ done pc width rest count t₁, targets = done ++ (pc, width) :: rest ∧
      applyAll group done t = (.ok count, t₁) ∧ pc ∉ t₁.patched ∧
      BigEndian.bound width ≤ BigEndian.value (window t₁.code pc width) + t₁.delta ∧
      e = .patchOverflow pc width (BigEndian.value (window t₁.code pc width)) t₁.delta ∧
      t' = { t₁ with patched := pc :: t₁.patched } := by
  induction targets generalizing t with
  | nil => simp [applyAll] at h
  | cons target targets ih =>
    simp only [applyAll] at h
    split at h
    case h_1 ha =>
      cases h
      simp only [apply] at ha
      split at ha
      case isTrue => simp at ha
      case isFalse hmem =>
        split at ha
        case isTrue => simp at ha
        case isFalse hlt =>
          cases ha
          exact ⟨[], _, _, targets, 0, t, rfl, rfl, hmem, Nat.le_of_not_lt hlt, rfl, rfl⟩
    case h_2 patched _ ha =>
      split at h
      case h_1 hall =>
        cases h
        obtain ⟨done, pc, width, rest, count, t₁, htargets, hdone, hmem, hover⟩ := ih hall
        refine ⟨target :: done, pc, width, rest, patched.toNat + count, t₁, by rw [htargets]; rfl,
          ?_, hmem, hover⟩
        simp only [applyAll, ha, hdone]
      case h_2 => simp at h

theorem check_setWidth_of_ne (h : g ≠ group) :
    check p g pc (t.setWidth group width) =
      (check p g pc t).map id (·.setWidth group width) := by
  have hwidths : (t.setWidth group width).widths g = t.widths g := widths_setWidth_of_ne h.symm
  simp only [check_eq_examine, hwidths, code_setWidth]
  split
  · rfl
  · split
    · rw [setWidth_comm h.symm]
      rfl
    · split <;> rfl

theorem checkAll_setWidth_of_ne (h : g ≠ group) :
    checkAll p g pcs (t.setWidth group width) =
      (checkAll p g pcs t).map id (·.setWidth group width) := by
  induction pcs generalizing t with
  | nil => rfl
  | cons pc pcs ih =>
    simp only [checkAll, check_setWidth_of_ne h]
    rcases check p g pc t with ⟨_ | _, t₁⟩
    · rfl
    · simp only [Prod.map, id, ih]
      rcases checkAll p g pcs t₁ with ⟨_ | _, t₂⟩ <;> rfl

theorem patch_setWidth_of_ne (h : g ≠ group) :
    patch p g pcs (t.setWidth group width) =
      (patch p g pcs t).map id (·.setWidth group width) := by
  simp only [patch, checkAll_setWidth_of_ne h]
  rcases checkAll p g pcs t with ⟨_ | targets, t₁⟩
  · rfl
  · exact applyAll_setWidth g targets t₁ group width

theorem widths_patch_of_ne (h : g ≠ group) (p : Program) (pcs : List Nat) (t : Patcher) :
    (patch p g pcs t).2.widths group = t.widths group := by
  have hall : (checkAll p g pcs t).2.widths group = t.widths group := by
    rcases checkAll_cases p g pcs t with heq | ⟨_, _, _, _, _, _, heq⟩
    · rw [heq]
    · rw [heq, widths_setWidth_of_ne h]
  simp only [patch]
  split
  case h_1 hc => rw [← hall, hc]
  case h_2 hc => rw [widths_applyAll, ← hall, hc]

structure Call where
  program : Program
  group   : PushGroup
  pcs     : List Nat

namespace Call

def run (c : Call) (t : Patcher) : Outcome Nat :=
  patch c.program c.group c.pcs t

def Opens (c : Call) (group : PushGroup) (width : Nat) : Prop :=
  c.group = group ∧ ∃ pc rest, c.pcs = pc :: rest ∧ Checked c.program (pc, width)

theorem run_setWidth {c : Call} (free : t.widths group = none)
    (h : ∀ w, c.Opens group w → w = width) :
    c.run (t.setWidth group width) = c.run t ∨
      (c.run t).2.widths group = none ∧
        c.run (t.setWidth group width) = (c.run t).map id (·.setWidth group width) := by
  by_cases hg : c.group = group
  case neg =>
    exact .inr ⟨(widths_patch_of_ne hg ..).trans free, patch_setWidth_of_ne hg⟩
  case pos =>
    obtain ⟨p, g, pcs⟩ := c
    obtain rfl : g = group := hg
    rcases pcs with _ | ⟨pc, pcs⟩
    case nil => exact .inr ⟨free, rfl⟩
    case cons =>
      have hcheck := check_eq_examine p g pc t
      have hcheck' := check_eq_examine p g pc (t.setWidth g width)
      simp only [free, widths_setWidth, code_setWidth] at hcheck hcheck'
      cases hex : examine p g pc t.code.length with
      | error e =>
        simp only [hex] at hcheck hcheck'
        refine .inr ?_
        simp only [run, patch, checkAll, hcheck, hcheck', Prod.map, id, free, and_self]
      | ok w =>
        simp only [hex] at hcheck hcheck'
        have hchecked := (passed_of_check hcheck).checked _ (List.mem_singleton_self _)
        obtain rfl := h w ⟨rfl, pc, pcs, rfl, hchecked⟩
        refine .inl ?_
        simp only [if_true] at hcheck'
        simp only [run, patch, checkAll, hcheck, hcheck']

end Call

def answers : List Call → Patcher → List (Except Error Nat)
  | [], _ => []
  | c :: cs, t => (c.run t).1 :: answers cs (c.run t).2

theorem answers_setWidth {cs : List Call} (free : t.widths group = none)
    (h : ∀ c ∈ cs, ∀ w, c.Opens group w → w = width) :
    answers cs (t.setWidth group width) = answers cs t := by
  induction cs generalizing t with
  | nil => rfl
  | cons c cs ih =>
    have ⟨hc, hcs⟩ := List.forall_mem_cons.mp h
    rcases Call.run_setWidth free hc with heq | ⟨hfree, hmap⟩
    case inl => simp only [answers, heq]
    case inr =>
      simp only [answers, hmap, Prod.map, id]
      rw [ih hfree hcs]

-- The group takes its width from a call that is refused. Later calls notice that only where they
-- begin with a push of another width, and these are refused for it.
structure Marked (group : PushGroup) (width : Nat) (t t' : Patcher) : Prop where
  free    : t.widths group = none
  mark    : t' = t.setWidth group width
  later   : ∀ cs, (∀ c ∈ cs, ∀ w, c.Opens group w → w = width) → answers cs t' = answers cs t
  refuses : ∀ q pc rest w, Checked q (pc, w) → pc + 1 + w ≤ t.code.length → w ≠ width →
    patch q group (pc :: rest) t' = (.error (.inconsistentWidth group pc width w), t')

theorem marked_setWidth (free : t.widths group = none) (width : Nat) :
    Marked group width t (t.setWidth group width) where
  free    := free
  mark    := rfl
  later   := fun _ => answers_setWidth free
  refuses := fun q pc rest w hchecked hfits hne => by
    have hcheck := check_eq_examine q group pc (t.setWidth group width)
    simp only [code_setWidth, examine_of_checked hchecked hfits group, widths_setWidth,
      if_neg hne.symm] at hcheck
    simp only [patch, checkAll, hcheck]

-- A call of which a push is refused writes nothing.
structure Refused (p : Program) (group : PushGroup) (pcs : List Nat) (t t' : Patcher)
    (e : Error) : Prop where
  blames  : ∃ pc ∈ pcs, check p group pc t' = (.error e, t')
  code    : t'.code = t.code
  patches : t'.patches = t.patches
  left    : t' = t ∨ ∃ width, Call.Opens ⟨p, group, pcs⟩ group width ∧ Marked group width t t'

-- A call in which the push at `pc` overflows has changed the pushes `done` in front of it, just as
-- a call for these alone, and from then on the push counts as patched.
structure Torn (p : Program) (group : PushGroup) (done : List Nat) (pc width count : Nat)
    (t t₁ t' : Patcher) (e : Error) : Prop where
  front     : patch p group done t = (.ok count, t₁)
  checked   : Checked p (pc, width)
  due       : pc ∉ t₁.patched
  exceeds   : BigEndian.bound width ≤ BigEndian.value (window t₁.code pc width) + t₁.delta
  blames    : e = .patchOverflow pc width (BigEndian.value (window t₁.code pc width)) t₁.delta
  left      : t' = { t₁.setWidth group width with patched := pc :: t₁.patched }
  unwritten : count = 0 → t'.code = t.code ∧ t'.patches = t.patches

theorem eq_of_applyAll_zero (h : applyAll group targets t = (.ok 0, t')) : t' = t := by
  induction targets generalizing t with
  | nil =>
    cases h
    rfl
  | cons target targets ih =>
    simp only [applyAll] at h
    split at h
    case h_1 => simp at h
    case h_2 patched t₁ ha =>
      split at h
      case h_1 => simp at h
      case h_2 count t₂ hall =>
        obtain ⟨hcount, rfl⟩ : patched.toNat + count = 0 ∧ t₂ = t' := by simpa using h
        obtain ⟨rfl, rfl⟩ : patched = false ∧ count = 0 := by
          cases patched <;> simp_all
        rw [ih hall]
        simp only [apply] at ha
        split at ha
        · cases ha
          rfl
        · split at ha <;> simp at ha

theorem refused_or_torn (h : patch p group pcs t = (.error e, t')) :
    Refused p group pcs t t' e ∨
      ∃ done pc rest width count t₁, pcs = done ++ pc :: rest ∧
        Torn p group done pc width count t t₁ t' e := by
  simp only [patch] at h
  split at h
  case h_1 hall =>
    cases h
    have hblames := exists_of_checkAll_error hall
    have hleft := checkAll_cases p group pcs t
    rw [hall] at hleft
    rcases hleft with rfl | ⟨pc, rest, width, hpcs, hchecked, free, rfl⟩
    case inl => exact .inl ⟨hblames, rfl, rfl, .inl rfl⟩
    case inr =>
      exact .inl ⟨hblames, rfl, rfl,
        .inr ⟨width, ⟨rfl, pc, rest, hpcs, hchecked⟩, marked_setWidth free width⟩⟩
  case h_2 targets t₀ hall =>
    obtain ⟨done, pc, width, rest, count, t₂, rfl, happly, hdue, hover, hblames, hleft⟩ :=
      exists_of_applyAll_error h
    obtain ⟨rest, t₁, hpcs, hdone, rfl⟩ := exists_of_checkAll_append hall
    rw [applyAll_setWidth] at happly
    rcases hfront : applyAll group done t₁ with ⟨result, t₃⟩
    obtain ⟨rfl, rfl⟩ : result = .ok count ∧ t₃.setWidth group width = t₂ := by
      simpa [hfront] using happly
    refine .inr ⟨done.map (·.1), pc, rest, width, count, t₃, hpcs, ?_, ?_, hdue, hover, hblames,
      hleft, fun hcount => ?_⟩
    · simp only [patch, hdone, hfront]
    · exact (passed_of_checkAll hall).2.checked _ (by simp)
    · obtain rfl := hcount
      obtain rfl := eq_of_applyAll_zero hfront
      obtain ⟨widths, rfl⟩ := (passed_of_checkAll hdone).2.same
      exact hleft ▸ ⟨rfl, rfl⟩

-- PUSH1 0x10 PUSH1 0xff
def brimful : List UInt8 :=
  [0x60, 0x10, 0x60, 0xff]

theorem decode_brimful :
    Program.decode brimful = ⟨[⟨0, .push 1, some [0x10]⟩, ⟨2, .push 1, some [0xff]⟩]⟩ := by
  cbv

theorem patch_brimful :
    patch (.decode brimful) .jump [0, 2] (start 2 brimful) =
      (.error (.patchOverflow 2 1 0xff 2), {
        (start 2 brimful).setWidth .jump 1 with
        code := [0x60, 0x12, 0x60, 0xff]
        patched := [2, 0]
        patches := [⟨.jump, 0, 1, 0x10, 0x12⟩]
      }) := by
  rw [decode_brimful]
  rfl

theorem refused_or_torn_brimful :
    ∃ t₁ t', patch (.decode brimful) .jump [0, 2] (start 2 brimful) =
        (.error (.patchOverflow 2 1 0xff 2), t') ∧
      Torn (.decode brimful) .jump [0] 2 1 1 (start 2 brimful) t₁ t'
        (.patchOverflow 2 1 0xff 2) := by
  rcases refused_or_torn patch_brimful with
    hrefused | ⟨done, pc, rest, width, count, t₁, hpcs, htorn⟩
  case inl => exact absurd hrefused.code (by decide)
  case inr =>
    obtain ⟨rfl, rfl, _⟩ := Error.patchOverflow.inj htorn.blames
    obtain rfl : done = [0] := by
      rcases done with _ | ⟨_, _ | ⟨_, _⟩⟩ <;> simp at hpcs
      rw [hpcs.1]
    obtain rfl : count = 1 := by
      have hcount : (patch (.decode brimful) .jump [0] (start 2 brimful)).1 = .ok 1 := by
        rw [decode_brimful]
        rfl
      simpa [htorn.front] using hcount
    exact ⟨t₁, _, patch_brimful, htorn⟩

theorem patch_tears :
    ¬∀ code delta group pcs e t',
      patch (.decode code) group pcs (start delta code) = (.error e, t') → t'.code = code := by
  intro h
  have hcode := h brimful 2 .jump [0, 2] _ _ patch_brimful
  exact absurd hcode (by decide)

end Splice.Patcher
