import Splice.Proofs.Refusal

namespace Splice

namespace Patch

def Fits (e : Patch) : Prop :=
  e.after < BigEndian.bound e.width

def raisedBy (delta : Nat) (e : Patch) : Patch :=
  { e with after := e.before + delta }

end Patch

namespace Patcher

open Program

variable {p : Program} {code : List UInt8} {t t' : Patcher} {group : PushGroup} {pcs : List Nat}

def Admits (p : Program) (pcs : List Nat) (size : Nat) : Prop :=
  ∃ width, ∀ pc ∈ pcs, Checked p (pc, width) ∧ pc + 1 + width ≤ size

theorem check_of_checked {pc width : Nat}
    (hwidth : t.widths group = none ∨ t.widths group = some width)
    (hc : Checked p (pc, width)) (hfits : pc + 1 + width ≤ t.code.length) :
    check p group pc t = (.ok width, t.setWidth group width) := by
  rw [check_eq_examine, examine_of_checked hc hfits]
  rcases hwidth with hnone | hsome
  case inl => simp only [hnone]
  case inr => simp only [hsome, if_true, setWidth_of_width hsome]

theorem checkAll_of_checked {width : Nat}
    (hwidth : t.widths group = none ∨ t.widths group = some width)
    (h : ∀ pc ∈ pcs, Checked p (pc, width) ∧ pc + 1 + width ≤ t.code.length) :
    (checkAll p group pcs t).1 = .ok (pcs.map (·, width)) := by
  induction pcs generalizing t with
  | nil => rfl
  | cons pc pcs ih =>
    obtain ⟨⟨hc, hfits⟩, hcs⟩ := List.forall_mem_cons.mp h
    have hrest := ih (t := t.setWidth group width) (.inr (widths_setWidth ..)) hcs
    simp only [checkAll, check_of_checked hwidth hc hfits]
    split
    case h_1 hall => simp [hall] at hrest
    case h_2 targets _ hall =>
      rw [hall] at hrest
      cases hrest
      rfl

theorem exists_checkAll_iff (p : Program) (pcs : List Nat) (free : t.widths group = none) :
    (∃ targets t', checkAll p group pcs t = (.ok targets, t')) ↔
      Admits p pcs t.code.length := by
  constructor
  case mp =>
    rintro ⟨targets, t', h⟩
    obtain ⟨rfl, hpassed⟩ := passed_of_checkAll h
    refine ⟨(t'.widths group).getD 0, fun pc hpc => ?_⟩
    obtain ⟨target, hm, rfl⟩ := List.mem_map.mp hpc
    rw [hpassed.width target hm]
    exact ⟨hpassed.checked target hm, hpassed.fits target hm⟩
  case mpr =>
    rintro ⟨width, h⟩
    exact ⟨_, _, Prod.ext (checkAll_of_checked (.inl free) h) rfl⟩

section

variable (ht : p.Tiled) (hs : p.Spells code)

include ht hs

theorem exists_apply_iff (h : Edits p code t) {target : Nat × Nat} (hc : Checked p target)
    (hfits : target.1 + 1 + target.2 ≤ code.length) (group : PushGroup) :
    (∃ patched t', apply group target.1 target.2 t = (.ok patched, t')) ↔
      (target.1 ∉ t.patched → (p.patchAt group t.delta target.1).Fits) := by
  obtain ⟨pc, _⟩ := target
  obtain ⟨ins, hins, _, htrunc, rfl, _⟩ := id hc
  by_cases hmem : pc ∈ t.patched
  case pos => simp [apply, hmem]
  case neg =>
    have hbefore := h.before_eq ht hs hins htrunc hfits hmem
    simp only [apply, if_neg hmem, hbefore, patchAt_eq hins, Patch.Fits]
    split <;> simp_all

theorem exists_applyAll_iff (h : Edits p code t) {targets : List (Nat × Nat)}
    (hc : ∀ target ∈ targets, Checked p target)
    (hfits : ∀ target ∈ targets, target.1 + 1 + target.2 ≤ code.length) :
    (∃ count t', applyAll group targets t = (.ok count, t')) ↔
      ∀ pc ∈ targets.map (·.1), pc ∉ t.patched → (p.patchAt group t.delta pc).Fits := by
  induction targets generalizing t with
  | nil => simp [applyAll]
  | cons target targets ih =>
    obtain ⟨hc, hcs⟩ := List.forall_mem_cons.mp hc
    obtain ⟨hfit, hfits⟩ := List.forall_mem_cons.mp hfits
    have hfirst := exists_apply_iff ht hs h hc hfit group
    rw [List.map_cons, List.forall_mem_cons, ← hfirst]
    simp only [applyAll]
    rcases happly : apply group target.1 target.2 t with ⟨e | patched, t₁⟩
    case error => simp
    case ok =>
      obtain ⟨h₁, hdelta, hpatched, _⟩ := h.apply ht hs hc hfit happly
      have hfits₁ := hfirst.mp ⟨patched, t₁, happly⟩
      -- A push that comes twice is changed only once, and then it has been looked at before.
      have hsame : (∀ pc ∈ targets.map (·.1), pc ∉ t₁.patched →
            (p.patchAt group t₁.delta pc).Fits) ↔
          ∀ pc ∈ targets.map (·.1), pc ∉ t.patched → (p.patchAt group t.delta pc).Fits := by
        refine forall₂_congr fun pc _ => ?_
        rw [hdelta, hpatched, not_or, and_imp]
        refine ⟨fun himp hmem => ?_, fun himp _ => himp⟩
        by_cases hpc : pc = target.1
        case pos => exact hpc ▸ hfits₁ (hpc ▸ hmem)
        case neg => exact himp hpc hmem
      rw [← hsame, ← ih h₁ hcs hfits]
      rcases hall : applyAll group targets t₁ with ⟨_ | _, _⟩ <;> simp [hall]

theorem exists_patch_iff (h : Edits p code t) (free : t.widths group = none) (pcs : List Nat) :
    (∃ t', (patch p group pcs t).settle = .ok t') ↔
      Admits p pcs code.length ∧
        ∀ pc ∈ pcs, pc ∉ t.patched → (p.patchAt group t.delta pc).Fits := by
  rw [← h.length, ← exists_checkAll_iff p pcs free]
  simp only [settle_eq_ok_iff, patch]
  rcases hall : checkAll p group pcs t with ⟨e | targets, t₁⟩
  case error => simp
  case ok =>
    obtain ⟨rfl, hpassed⟩ := passed_of_checkAll hall
    have hfits : ∀ target ∈ targets, target.1 + 1 + target.2 ≤ code.length := by
      rw [← h.length]
      exact hpassed.fits
    obtain ⟨widths, rfl⟩ := hpassed.same
    have h₁ : Edits p code { t with widths } := ⟨h.length, h.kept, h.raised⟩
    rw [exists_comm, exists_applyAll_iff ht hs h₁ hpassed.checked hfits]
    simp

theorem exists_two_patches_iff {g g' : PushGroup} (hne : g ≠ g') (hnodup : pcs.Nodup)
    (pcs' : List Nat) (delta : Nat) :
    (∃ t₁ t₂, (patch p g pcs (start delta code)).settle = .ok t₁ ∧
      (patch p g' pcs' t₁).settle = .ok t₂) ↔
    (Admits p pcs code.length ∧ ∀ pc ∈ pcs, (p.patchAt g delta pc).Fits) ∧
      Admits p pcs' code.length ∧ ∀ pc ∈ pcs', pc ∉ pcs → (p.patchAt g' delta pc).Fits := by
  have hstart : (∃ t₁, (patch p g pcs (start delta code)).settle = .ok t₁) ↔
      Admits p pcs code.length ∧ ∀ pc ∈ pcs, (p.patchAt g delta pc).Fits := by
    rw [exists_patch_iff ht hs (edits_start delta) rfl pcs]
    simp [start]
  have hsecond : ∀ t₁, (patch p g pcs (start delta code)).settle = .ok t₁ →
      ((∃ t₂, (patch p g' pcs' t₁).settle = .ok t₂) ↔ Admits p pcs' code.length ∧
        ∀ pc ∈ pcs', pc ∉ pcs → (p.patchAt g' delta pc).Fits) := by
    intro t₁ h₁
    obtain ⟨hedits, hdelta, hpatched, _⟩ := (edits_start delta).patch ht hs hnodup h₁
    obtain ⟨count, hpatch⟩ := settle_eq_ok_iff.mp h₁
    have free : t₁.widths g' = none := by
      have hwidths := widths_patch_of_ne hne p pcs (start delta code)
      rwa [hpatch] at hwidths
    have hdelta : t₁.delta = delta := hdelta
    have hmem : ∀ pc, pc ∈ t₁.patched ↔ pc ∈ pcs := by simp [hpatched, start]
    rw [exists_patch_iff ht hs hedits free pcs', hdelta]
    simp only [hmem]
  rw [← hstart]
  constructor
  case mp =>
    rintro ⟨t₁, t₂, h₁, h₂⟩
    exact ⟨⟨t₁, h₁⟩, (hsecond t₁ h₁).mp ⟨t₂, h₂⟩⟩
  case mpr =>
    rintro ⟨⟨t₁, h₁⟩, h⟩
    obtain ⟨t₂, h₂⟩ := (hsecond t₁ h₁).mpr h
    exact ⟨t₁, t₂, h₁, h₂⟩

end

end Patcher

-- What is asked of the codes before any offset is raised. The prelude has no part in it.
structure Admitted (init deployed : List UInt8) (suffix : Nat) (layout : Layout)
    (r : Resolution) : Prop where
  located  : Layout.locate init deployed = .ok layout
  fits     : suffix ≤ deployed.length
  resolved : resolve (.stripped deployed suffix) = .ok r
  jumps    : Patcher.Admits (.stripped deployed suffix) r.jumpOrigins deployed.length
  copies   : Patcher.Admits (.stripped deployed suffix) r.copyOrigins deployed.length
  length   : Patcher.Admits (.decode init) [layout.lengthPc]
    (init.take layout.runtimeOffset).length

def entries (init deployed : List UInt8) (suffix : Nat) (layout : Layout) (r : Resolution)
    (delta : Nat) : List Patch :=
  r.jumpOrigins.map ((Program.stripped deployed suffix).patchAt .jump delta) ++
    (r.copyOrigins.filter (· ∉ r.jumpOrigins)).map
      ((Program.stripped deployed suffix).patchAt .codecopy delta) ++
    [(Program.decode init).patchAt .length delta layout.lengthPc]

section

variable {init deployed : List UInt8} {suffix delta delta' : Nat} {prelude : Prelude}
  {layout : Layout} {r : Resolution} {out : Injection}

theorem entries_eq_map (delta delta' : Nat) : entries init deployed suffix layout r delta' =
    (entries init deployed suffix layout r delta).map (·.raisedBy delta') := by
  simp only [entries, List.map_append, List.map_map, List.map_singleton]
  rfl

theorem forall_entries_iff {P : Patch → Prop} :
    (∀ e ∈ entries init deployed suffix layout r delta, P e) ↔
      (∀ pc ∈ r.jumpOrigins, P ((Program.stripped deployed suffix).patchAt .jump delta pc)) ∧
      (∀ pc ∈ r.copyOrigins, pc ∉ r.jumpOrigins →
        P ((Program.stripped deployed suffix).patchAt .codecopy delta pc)) ∧
      P ((Program.decode init).patchAt .length delta layout.lengthPc) := by
  simp only [entries, List.forall_mem_append, List.forall_mem_map, List.forall_mem_singleton,
    List.mem_filter, decide_eq_true_eq, and_imp, and_assoc]

theorem fits_entries_iff : (∀ e ∈ entries init deployed suffix layout r delta', e.Fits) ↔
    ∀ e ∈ entries init deployed suffix layout r delta,
      e.before + delta' < BigEndian.bound e.width := by
  rw [entries_eq_map delta, List.forall_mem_map]
  rfl

theorem patches_of_inject (h : inject init deployed prelude suffix = .ok out) :
    out.patches = entries init deployed suffix out.layout out.resolution prelude.size := by
  obtain ⟨t₁, t₂, t₃, hi⟩ := injected_of_inject h
  rw [hi.patches, hi.runtime_raised.2.2.2, hi.front_raised.2, entries]

theorem exists_inject_iff :
    (∃ out, inject init deployed prelude suffix = .ok out ∧ out.layout = layout ∧
      out.resolution = r) ↔
    Admitted init deployed suffix layout r ∧
      ∀ e ∈ entries init deployed suffix layout r prelude.size, e.Fits := by
  have hne : PushGroup.jump ≠ .codecopy := by decide
  have free : (Patcher.start prelude.size (init.take layout.runtimeOffset)).widths .length = none :=
    rfl
  have hruntime := Patcher.exists_two_patches_iff (Program.tiled_decode _)
    (spells_stripped deployed suffix) hne r.nodup_jumpOrigins r.copyOrigins prelude.size
  have hfront := Patcher.exists_patch_iff (Program.tiled_decode init)
    (Program.spells_take init layout.runtimeOffset) (Patcher.edits_start prelude.size) free
    [layout.lengthPc]
  constructor
  case mp =>
    rintro ⟨out, h, rfl, rfl⟩
    obtain ⟨t₁, t₂, t₃, hi⟩ := injected_of_inject h
    obtain ⟨⟨hjumps, hjumps'⟩, hcopies, hcopies'⟩ := hruntime.mp ⟨t₁, t₂, hi.jumps, hi.copies⟩
    obtain ⟨hlength, hlength'⟩ := hfront.mp ⟨t₃, hi.length⟩
    have hlength' := hlength' _ (List.mem_singleton_self _) List.not_mem_nil
    exact ⟨⟨hi.located, hi.fits, hi.resolved, hjumps, hcopies, hlength⟩,
      forall_entries_iff.mpr ⟨hjumps', hcopies', hlength'⟩⟩
  case mpr =>
    rintro ⟨ha, hentries⟩
    obtain ⟨hjumps', hcopies', hlength'⟩ := forall_entries_iff.mp hentries
    obtain ⟨t₁, t₂, h₁, h₂⟩ := hruntime.mpr ⟨⟨ha.jumps, hjumps'⟩, ha.copies, hcopies'⟩
    obtain ⟨t₃, h₃⟩ := hfront.mpr ⟨ha.length, fun pc hpc _ => List.mem_singleton.mp hpc ▸ hlength'⟩
    refine ⟨{
      initCode := t₃.code ++ prelude.bytes ++ t₂.code
      runtimeCode := prelude.bytes ++ t₂.code
      layout, resolution := r, patches := t₂.patches ++ t₃.patches }, ?_, rfl, rfl⟩
    exact bind_eq_ok_iff.mpr ⟨_, ha.located, bind_eq_ok_iff.mpr ⟨_, if_pos ha.fits,
      bind_eq_ok_iff.mpr ⟨_, ha.resolved, bind_eq_ok_iff.mpr ⟨_, h₁,
      bind_eq_ok_iff.mpr ⟨_, h₂, bind_eq_ok_iff.mpr ⟨_, h₃, rfl⟩⟩⟩⟩⟩⟩

theorem room_of_inject (h : inject init deployed prelude suffix = .ok out) :
    ∀ e ∈ out.patches, e.before + prelude.size < BigEndian.bound e.width := by
  rw [patches_of_inject h]
  exact fits_entries_iff.mp (exists_inject_iff.mp ⟨out, h, rfl, rfl⟩).2

theorem exists_inject_of_room {p q : Prelude} (h : inject init deployed p suffix = .ok out)
    (room : ∀ e ∈ out.patches, e.before + q.size < BigEndian.bound e.width) :
    ∃ out', inject init deployed q suffix = .ok out' ∧ out'.layout = out.layout ∧
      out'.resolution = out.resolution ∧
      out'.patches = out.patches.map (·.raisedBy q.size) := by
  have hadmitted := (exists_inject_iff.mp ⟨out, h, rfl, rfl⟩).1
  rw [patches_of_inject h] at room ⊢
  obtain ⟨out', h', hlayout, hresolution⟩ :=
    exists_inject_iff.mpr ⟨hadmitted, fits_entries_iff.mpr room⟩
  refine ⟨out', h', hlayout, hresolution, ?_⟩
  rw [patches_of_inject h', hlayout, hresolution, entries_eq_map p.size]

-- Whether an injection succeeds depends on the length of the prelude alone, and a shorter prelude
-- does wherever a longer one does.
theorem accepted_by_size (init deployed : List UInt8) (suffix : Nat) {p q : Prelude}
    (hsize : q.size ≤ p.size) :
    (∀ out, inject init deployed p suffix = .ok out →
      ∃ out', inject init deployed q suffix = .ok out' ∧ out'.layout = out.layout ∧
        out'.resolution = out.resolution ∧
        out'.patches = out.patches.map (·.raisedBy q.size)) ∧
    ((∃ out, inject init deployed p suffix = .ok out) ↔
      ∃ out, inject init deployed .empty suffix = .ok out ∧
        ∀ e ∈ out.patches, e.before + p.size < BigEndian.bound e.width) := by
  constructor
  case left =>
    intro out h
    refine exists_inject_of_room h fun e he => ?_
    have hroom := room_of_inject h e he
    omega
  case right =>
    constructor
    case mp =>
      rintro ⟨out, h⟩
      have hroom := room_of_inject h
      obtain ⟨out₀, h₀, _, _, hpatches⟩ := exists_inject_of_room (q := .empty) h fun e he =>
        Nat.lt_of_le_of_lt (Nat.add_le_add_left (Nat.zero_le _) _) (hroom e he)
      refine ⟨out₀, h₀, ?_⟩
      rw [hpatches, List.forall_mem_map]
      exact hroom
    case mpr =>
      rintro ⟨out₀, h₀, room⟩
      obtain ⟨out, h, _⟩ := exists_inject_of_room h₀ room
      exact ⟨out, h⟩

end

theorem accepted_by_size_hop :
    ∃ out out' out₀, inject hopInit hop ⟨[0x60, 0x00, 0x50]⟩ 2 = .ok out ∧
      inject hopInit hop ⟨[0x5b]⟩ 2 = .ok out' ∧ out'.layout = out.layout ∧
      out'.resolution = out.resolution ∧
      out'.patches = [⟨.jump, 0, 1, 3, 4⟩, ⟨.length, 0, 1, 6, 7⟩] ∧
      inject hopInit hop .empty 2 = .ok out₀ ∧
      out₀.patches = [⟨.jump, 0, 1, 3, 3⟩, ⟨.length, 0, 1, 6, 6⟩] ∧
      ¬∃ out, inject hopInit hop ⟨List.replicate 253 0x5b⟩ 2 = .ok out := by
  obtain ⟨out, h, _, hpatches⟩ := inject_hop
  have hone : Prelude.size ⟨[0x5b]⟩ ≤ Prelude.size ⟨[0x60, 0x00, 0x50]⟩ := by decide
  have hnone : Prelude.empty.size ≤ Prelude.size ⟨[0x60, 0x00, 0x50]⟩ := by decide
  have hsize : Prelude.size ⟨List.replicate 253 0x5b⟩ = 253 := List.length_replicate
  have hlong : Prelude.size ⟨[0x5b]⟩ ≤ Prelude.size ⟨List.replicate 253 0x5b⟩ := by
    rw [hsize]
    decide
  obtain ⟨out', h', hlayout, hresolution, hpatches'⟩ :=
    (accepted_by_size hopInit hop 2 hone).1 out h
  obtain ⟨out₀, h₀, _, _, hpatches₀⟩ := (accepted_by_size hopInit hop 2 hnone).1 out h
  rw [hpatches] at hpatches' hpatches₀
  refine ⟨out, out', out₀, h, h', hlayout, hresolution, hpatches', h₀, hpatches₀, fun hout => ?_⟩
  obtain ⟨out₁, h₁, room⟩ := (accepted_by_size hopInit hop 2 hlong).2.mp hout
  cases h₀.symm.trans h₁
  rw [hpatches₀, hsize] at room
  exact absurd (room _ List.mem_cons_self) (by decide)

end Splice
