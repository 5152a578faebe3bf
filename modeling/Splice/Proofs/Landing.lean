import Mathlib.Tactic.Tauto
import Splice.Injection
import Splice.Proofs.Patching
import Splice.Proofs.Provenance

namespace Splice

theorem forM_eq_ok_iff {ε α : Type} {f : α → Except ε Unit} {as : List α} :
    as.forM f = .ok () ↔ ∀ a ∈ as, f a = .ok () := by
  induction as with
  | nil => simp [List.forM, pure, Except.pure]
  | cons a as ih =>
    rw [List.forall_mem_cons, ← ih]
    refine bind_eq_ok_iff.trans ⟨?_, fun h => ⟨(), h⟩⟩
    rintro ⟨⟨⟩, h⟩
    exact h

namespace Program

theorem atPc?_decode_append {front : List UInt8} (h : (decode front).Whole) (code : List UInt8)
    (pc : Nat) : (decode (front ++ code)).atPc? (front.length + pc) =
      ((decode code).atPc? pc).map (·.shift front.length) := by
  have hnone : (decode front).instructions.find? (·.pc = front.length + pc) = none := by
    refine List.find?_eq_none.mpr fun ins hm => ?_
    have := pc_lt_of_mem_decodeFrom hm
    simp only [decide_eq_true_eq]
    omega
  have hpc : ∀ ins : Instruction,
      (ins.shift front.length).pc = front.length + pc ↔ ins.pc = pc := by
    intro ins
    simp [Instruction.shift]
  simp only [atPc?, instructions_append h, List.find?_append, hnone, Option.none_or,
    List.find?_map, Function.comp_def, hpc]

end Program

namespace Resolution

variable {p : Program} {r : Resolution}

theorem rescueAll_eq_ok_iff {sites sites' : List JumpSite} :
    rescueAll p sites = .ok sites' ↔
      List.Forall₂ (fun s s' => (if s.isResolved then .ok s else rescue p s) = .ok s')
        sites sites' := by
  induction sites generalizing sites' with
  | nil => cases sites' <;> simp [rescueAll]
  | cons s sites ih =>
    have hcons : rescueAll p (s :: sites) =
        (if s.isResolved then .ok s else rescue p s) >>= fun s' =>
          rescueAll p sites >>= fun rest => .ok (s' :: rest) := by
      rw [rescueAll]
      split <;> rfl
    simp only [hcons, bind_eq_ok_iff, List.forall₂_cons_left_iff, ih, Except.ok.injEq,
      exists_and_left, @eq_comm _ _ sites']

theorem rescueAll_eq_ok {sites sites' : List JumpSite} (h : rescueAll p sites = .ok sites') :
    (∀ s' ∈ sites', ∃ s ∈ sites, s' = s ∨ rescue p s = .ok s') ∧
      ∀ s ∈ sites, s.isResolved → s ∈ sites' := by
  induction rescueAll_eq_ok_iff.mp h with
  | nil => simp
  | @cons s s' sites sites' hs hrest ih =>
    have ⟨hold, hkept⟩ := ih (rescueAll_eq_ok_iff.mpr hrest)
    constructor
    · rintro t (_ | ⟨_, ht⟩)
      · refine ⟨s, List.mem_cons_self, ?_⟩
        split at hs
        · exact .inl (Except.ok.inj hs).symm
        · exact .inr hs
      · have ⟨u, hu, h⟩ := hold t ht
        exact ⟨u, List.mem_cons_of_mem _ hu, h⟩
    · rintro t (_ | ⟨_, ht⟩) hresolved
      · rw [if_pos hresolved] at hs
        exact Except.ok.inj hs ▸ List.mem_cons_self
      · exact List.mem_cons_of_mem _ (hkept t ht hresolved)

structure Settles (p : Program) (a : Analysis) (r : Resolution) : Prop where
  jumps      : ∀ s ∈ r.jumps, s.Genuine p
  copies     : ∀ s ∈ r.copies, s.Genuine p
  resolved   : ∀ s ∈ a.jumps, s.isResolved → s ∈ r.jumps
  copied     : r.copies = a.copies
  pushed     : ∀ s ∈ r.copies, s.computed = false ∧ s.dynamic = false
  stats      : r.stats = a.stats

theorem settles_of_resolve (ht : p.Tiled) (h : resolve p = .ok r) :
    ∃ a, analyze p = .ok a ∧ Settles p a r := by
  have ⟨a, ha, h⟩ := bind_eq_ok_iff.mp h
  refine ⟨a, ha, ?_⟩
  have hgenuine := Exploration.genuine_of_run ht ha
  have ⟨jumps, hjumps, h⟩ := bind_eq_ok_iff.mp h
  have ⟨_, hcheck, h⟩ := bind_eq_ok_iff.mp h
  have ⟨_, hcopies, h⟩ := bind_eq_ok_iff.mp h
  cases h
  have ⟨hold, hkept⟩ := rescueAll_eq_ok hjumps
  refine ⟨fun s' hs' => ?_, hgenuine.copies, hkept, rfl, fun s hs => ?_, rfl⟩
  · obtain ⟨s, hs, rfl | hrescue⟩ := hold s' hs'
    case inl => exact hgenuine.jumps _ hs
    case inr => exact genuine_rescue ht (hgenuine.jumps s hs) hrescue
  · have := forM_eq_ok_iff.mp hcopies s hs
    simp only [checkCopy] at this
    cases hc : s.computed <;> cases hd : s.dynamic <;> simp_all

theorem mem_foldl_pcs {os : List Origin} {pcs : List Nat} {pc : Nat} :
    pc ∈ os.foldl (fun pcs o => insertAscending o.pc pcs) pcs ↔
      pc ∈ os.map (·.pc) ∨ pc ∈ pcs := by
  induction os generalizing pcs with
  | nil => simp
  | cons o os ih =>
    rw [List.foldl_cons, ih, mem_insertAscending_iff, List.map_cons, List.mem_cons]
    tauto

def patched (r : Resolution) : List Nat :=
  r.jumpOrigins ++ r.copyOrigins

theorem mem_patched_of_jump {s : JumpSite} (hs : s ∈ r.jumps) {o : Origin} (ho : o ∈ s.origins) :
    o.pc ∈ r.patched := by
  refine List.mem_append_left _ (mem_foldl_pcs.mpr (.inl ?_))
  exact List.mem_map_of_mem (List.mem_flatMap_of_mem hs ho)

theorem mem_patched_of_copy {s : CopySite} (hs : s ∈ r.copies) {o : Origin} (ho : o ∈ s.origins) :
    o.pc ∈ r.patched := by
  refine List.mem_append_right _ (mem_foldl_pcs.mpr (.inl ?_))
  exact List.mem_map_of_mem (List.mem_flatMap_of_mem hs ho)

end Resolution

def Program.stripped (code : List UInt8) (suffix : Nat) : Program :=
  .decode (code.take (code.length - suffix))

-- What an injection is made of: the jump pushes and then the copy pushes are patched in the
-- deployed code, and the length push in the code in front of the payload.
structure Injected (init deployed : List UInt8) (prelude : Prelude) (suffix : Nat)
    (out : Injection) (t₁ t₂ t₃ : Patcher) : Prop where
  located     : Layout.locate init deployed = .ok out.layout
  fits        : suffix ≤ deployed.length
  resolved    : resolve (.stripped deployed suffix) = .ok out.resolution
  jumps       : (Patcher.patch (.stripped deployed suffix) .jump out.resolution.jumpOrigins
    (.start prelude.size deployed)).settle = .ok t₁
  copies      : (Patcher.patch (.stripped deployed suffix) .codecopy out.resolution.copyOrigins
    t₁).settle = .ok t₂
  length      : (Patcher.patch (.decode init) .length [out.layout.lengthPc]
    (.start prelude.size (init.take out.layout.runtimeOffset))).settle = .ok t₃
  initCode    : out.initCode = t₃.code ++ prelude.bytes ++ t₂.code
  runtimeCode : out.runtimeCode = prelude.bytes ++ t₂.code
  patches     : out.patches = t₂.patches ++ t₃.patches

structure Spliced (deployed : List UInt8) (prelude : Prelude) (suffix : Nat) (out : Injection)
    (front back front' : List UInt8) : Prop where
  deployed  : deployed = front ++ back
  suffix    : back.length = suffix
  resolved  : resolve (.decode front) = .ok out.resolution
  runtime   : out.runtimeCode = prelude.bytes ++ (front' ++ back)
  length    : front'.length = front.length
  code      : ∀ c, Program.decode (front' ++ c) =
    (Program.decode (front ++ c)).raise prelude.size out.resolution.patched
  patchable : ∀ pc ∈ out.resolution.patched, (Program.decode front).Patchable prelude.size pc

section

variable {init deployed : List UInt8} {prelude : Prelude} {suffix : Nat} {out : Injection}

theorem injected_of_inject (h : inject init deployed prelude suffix = .ok out) :
    ∃ t₁ t₂ t₃, Injected init deployed prelude suffix out t₁ t₂ t₃ := by
  obtain ⟨layout, hlayout, h⟩ := bind_eq_ok_iff.mp h
  obtain ⟨stripped, hstripped, h⟩ := bind_eq_ok_iff.mp h
  obtain ⟨r, hr, h⟩ := bind_eq_ok_iff.mp h
  obtain ⟨t₁, ht₁, h⟩ := bind_eq_ok_iff.mp h
  obtain ⟨t₂, ht₂, h⟩ := bind_eq_ok_iff.mp h
  obtain ⟨t₃, ht₃, h⟩ := bind_eq_ok_iff.mp h
  cases h
  simp only [withoutMetadata] at hstripped
  split at hstripped
  case isFalse => simp at hstripped
  case isTrue hsuffix =>
    cases hstripped
    exact ⟨t₁, t₂, t₃, hlayout, hsuffix, hr, ht₁, ht₂, ht₃, rfl, rfl, rfl⟩

theorem spliced_of_inject (h : inject init deployed prelude suffix = .ok out) :
    ∃ front back front', Spliced deployed prelude suffix out front back front' := by
  have ⟨t₁, t₂, _, h⟩ := injected_of_inject h
  have hsuffix := h.fits
  have hdeployed : deployed = deployed.take (deployed.length - suffix) ++
      deployed.drop (deployed.length - suffix) := (List.take_append_drop ..).symm
  have hstart : Patcher.Raises (deployed.take (deployed.length - suffix))
      (deployed.drop (deployed.length - suffix)) (.start prelude.size deployed) := by
    conv_rhs => rw [hdeployed]
    exact Patcher.raises_start prelude.size
  obtain ⟨h₁, hdelta₁, hpatched₁⟩ := hstart.patch h.jumps
  obtain ⟨h₂, hdelta₂, hpatched₂⟩ := h₁.patch h.copies
  have hdelta : t₂.delta = prelude.size := hdelta₂.trans hdelta₁
  have hpatched : ∀ pc, pc ∈ t₂.patched ↔ pc ∈ out.resolution.patched := by
    intro pc
    rw [hpatched₂, hpatched₁, Resolution.patched, List.mem_append]
    simp [Patcher.start, or_comm]
  obtain ⟨front', hcode, hlength, hdecode⟩ := h₂.code
  refine ⟨_, _, front', hdeployed, ?_, h.resolved, ?_, hlength, ?_, ?_⟩
  · rw [List.length_drop]
    omega
  · rw [h.runtimeCode, hcode]
  · intro c
    rw [hdecode c, hdelta, Program.raise_congr hpatched]
  · intro pc hpc
    exact hdelta ▸ h₂.patched pc ((hpatched pc).mpr hpc)

end

-- A site is the same site `distance` further on in another program, and every push that it depends
-- on pushes a number that is larger by as much there.
structure Moved (p q : Program) (distance pc : Nat) (op : Opcode) (origins : List Origin) :
    Prop where
  site    : ∃ ins ins', p.atPc? pc = some ins ∧ q.atPc? (distance + pc) = some ins' ∧
    ins.op = op ∧ ins'.op = op
  origins : ∀ o ∈ origins, ∃ push push', p.atPc? o.pc = some push ∧
    q.atPc? (distance + o.pc) = some push' ∧ push.op.isPush ∧ push'.op = push.op ∧
    push'.value = push.value + distance

namespace Spliced

open Program

variable {deployed : List UInt8} {prelude : Prelude} {suffix : Nat} {out : Injection}
  {front back front' : List UInt8} (h : Spliced deployed prelude suffix out front back front')
  (hw : (decode prelude.bytes).Whole)

include h hw

theorem atPc?_eq (c : List UInt8) (pc : Nat) :
    (decode (prelude.bytes ++ (front' ++ c))).atPc? (prelude.size + pc) =
      ((decode (front ++ c)).atPc? pc).map fun ins =>
        (ins.raise prelude.size out.resolution.patched).shift prelude.size := by
  rw [Prelude.size, atPc?_decode_append hw, h.code, atPc?_raise, Option.map_map]
  rfl

theorem isJumpdest_eq (c : List UInt8) (pc : Nat) :
    (decode (prelude.bytes ++ (front' ++ c))).isJumpdest (prelude.size + pc) =
      (decode (front ++ c)).isJumpdest pc := by
  rw [isJumpdest, h.atPc?_eq hw, isJumpdest, Option.any_map]
  simp [Instruction.shift]

theorem exists_raised {pc : Nat} (hpc : pc ∈ out.resolution.patched) (c : List UInt8) :
    ∃ push push', (decode front).atPc? pc = some push ∧
      (decode (front ++ c)).atPc? pc = some push ∧
      (decode (prelude.bytes ++ (front' ++ c))).atPc? (prelude.size + pc) = some push' ∧
      push.op.isPush ∧ push'.op = push.op ∧ push'.value = push.value + prelude.size := by
  obtain ⟨push, hat, hpush, ht, _, _, hlt⟩ := h.patchable pc hpc
  have hatc := Program.atPc?_append hat ht c
  have hpc' := pc_of_atPc? hat
  refine ⟨push, _, hat, hatc, by rw [h.atPc?_eq hw, hatc, Option.map_some], hpush, ?_, ?_⟩
  · exact Instruction.op_raise
  · rw [Instruction.value_shift, Instruction.value_raise (hpc' ▸ hpc) hlt]

theorem moved {pc : Nat} {op : Opcode} {origins : List Origin}
    (placed : ∃ ins, (decode front).atPc? pc = some ins ∧ ins.op = op)
    (ho : ∀ o ∈ origins, o.pc ∈ out.resolution.patched) :
    Moved (decode deployed) (decode out.runtimeCode) prelude.size pc op origins := by
  rw [h.deployed, h.runtime]
  constructor
  case site =>
    obtain ⟨ins, hins, rfl⟩ := placed
    have ⟨ins', hins', hop⟩ := Program.exists_atPc?_append hins back
    refine ⟨ins', _, hins', by rw [h.atPc?_eq hw, hins', Option.map_some], hop, ?_⟩
    exact Instruction.op_raise.trans hop
  case origins =>
    intro o hm
    have ⟨push, push', _, hpush⟩ := h.exists_raised hw (ho o hm) back
    exact ⟨push, push', hpush⟩

end Spliced

-- All jumps of a spliced code land where they did before, behind the prelude.
theorem jumps_land {init deployed : List UInt8} {prelude : Prelude} {suffix : Nat}
    {out : Injection} (h : inject init deployed prelude suffix = .ok out)
    (hw : (Program.decode prelude.bytes).Whole) :
    (∀ pc, (Program.decode out.runtimeCode).isJumpdest (prelude.size + pc) =
      (Program.decode deployed).isJumpdest pc) ∧
    (∀ s ∈ out.resolution.jumps,
      Moved (.decode deployed) (.decode out.runtimeCode) prelude.size s.pc s.op s.origins ∧
      ∀ d ∈ s.destinations,
        (Program.decode out.runtimeCode).isJumpdest (prelude.size + d) ∧
        ∃ o ∈ s.origins, (Program.decode out.runtimeCode).Pushes (prelude.size + o.pc)
          (prelude.size + d)) ∧
    ∀ s ∈ out.resolution.copies,
      Moved (.decode deployed) (.decode out.runtimeCode) prelude.size s.pc .codecopy s.origins := by
  have ⟨front, back, front', hs⟩ := spliced_of_inject h
  have ⟨a, _, settles⟩ := Resolution.settles_of_resolve (Program.tiled_decode front) hs.resolved
  have hdest : ∀ pc, (Program.decode out.runtimeCode).isJumpdest (prelude.size + pc) =
      (Program.decode deployed).isJumpdest pc := by
    rw [hs.deployed, hs.runtime]
    exact hs.isJumpdest_eq hw back
  refine ⟨hdest, fun s hm => ⟨?_, fun d hd => ?_⟩, fun s hm => ?_⟩
  · have ⟨ins, hins, hop, _⟩ := (settles.jumps s hm).placed
    exact hs.moved hw ⟨ins, hins, hop⟩ fun o => Resolution.mem_patched_of_jump hm
  · have ⟨hvalid, pc, hpc, hpush⟩ := (settles.jumps s hm).destinations d hd
    obtain ⟨o, ho, rfl⟩ := List.mem_map.mp hpc
    constructor
    · rw [hdest, hs.deployed]
      have ⟨ins, hins, hop⟩ := Program.isJumpdest_iff.mp hvalid
      have ⟨ins', hins', hop'⟩ := Program.exists_atPc?_append hins back
      exact Program.isJumpdest_iff.mpr ⟨ins', hins', hop'.trans hop⟩
    · have ⟨push, push', hat, _, hat', hp, hop, hvalue⟩ :=
        hs.exists_raised hw (Resolution.mem_patched_of_jump hm ho) back
      obtain ⟨ins, hins, -, rfl⟩ := hpush
      cases hins.symm.trans hat
      refine ⟨o, ho, push', hs.runtime ▸ hat', hop ▸ hp, ?_⟩
      rw [hvalue, Nat.add_comm]
  · exact hs.moved hw (settles.copies s hm).placed fun o => Resolution.mem_patched_of_copy hm

-- A jump over nothing, with two bytes behind it that would be read as a push.
def hop : List UInt8 := [0x60, 0x03, 0x56, 0x5b, 0xa2, 0x61]

def hopInit : List UInt8 :=
  [0x60, 0x06, 0x80, 0x60, 0x0b, 0x60, 0x00, 0x39, 0x60, 0x00, 0xf3] ++ hop

theorem decode_hop : Program.decode (hop.take (hop.length - 2)) = ⟨[
    ⟨0, .push 1, some [0x03]⟩, ⟨2, .jump, none⟩, ⟨3, .jumpdest, none⟩]⟩ := by
  cbv

theorem whole_push_pop : (Program.decode [0x60, 0x00, 0x50]).Whole := by
  have hdecode : Program.decode [0x60, 0x00, 0x50] = ⟨[
      ⟨0, .push 1, some [0x00]⟩, ⟨2, .pop, none⟩]⟩ := by cbv
  simp [hdecode, Program.Whole, Instruction.isTruncated, Opcode.width]

theorem decode_hopInit : Program.decode hopInit = ⟨[
    ⟨0, .push 1, some [0x06]⟩, ⟨2, .dup 1, none⟩, ⟨3, .push 1, some [0x0b]⟩,
    ⟨5, .push 1, some [0x00]⟩, ⟨7, .codecopy, none⟩, ⟨8, .push 1, some [0x00]⟩, ⟨10, .ret, none⟩,
    ⟨11, .push 1, some [0x03]⟩, ⟨13, .jump, none⟩, ⟨14, .jumpdest, none⟩, ⟨15, .log2, none⟩,
    ⟨16, .push 2, some []⟩]⟩ := by
  cbv

theorem inject_hop :
    ∃ out, inject hopInit hop ⟨[0x60, 0x00, 0x50]⟩ 2 = .ok out ∧
      out.runtimeCode = [0x60, 0x00, 0x50, 0x60, 0x06, 0x56, 0x5b, 0xa2, 0x61] ∧
      out.patches = [⟨.jump, 0, 1, 3, 6⟩, ⟨.length, 0, 1, 6, 9⟩] := by
  have hsuffix : 2 ≤ hop.length := by decide
  have hmap : (inject hopInit hop ⟨[0x60, 0x00, 0x50]⟩ 2).map
      (fun out => (out.runtimeCode, out.patches)) =
      .ok ([0x60, 0x00, 0x50, 0x60, 0x06, 0x56, 0x5b, 0xa2, 0x61],
        [⟨.jump, 0, 1, 3, 6⟩, ⟨.length, 0, 1, 6, 9⟩]) := by
    simp only [inject, Layout.locate, withoutMetadata, if_pos hsuffix, bind, Except.bind,
      decode_hopInit, decode_hop]
    decide +kernel
  obtain ⟨out, h, hout⟩ := map_eq_ok_iff.mp hmap
  exact ⟨out, h, (Prod.mk.inj hout).1, (Prod.mk.inj hout).2⟩

theorem jumps_land_hop :
    ∃ out, inject hopInit hop ⟨[0x60, 0x00, 0x50]⟩ 2 = .ok out ∧
      out.runtimeCode = [0x60, 0x00, 0x50, 0x60, 0x06, 0x56, 0x5b, 0xa2, 0x61] ∧
      ∀ s ∈ out.resolution.jumps, ∀ d ∈ s.destinations,
        (Program.decode out.runtimeCode).isJumpdest (3 + d) := by
  have ⟨out, h, hout, _⟩ := inject_hop
  exact ⟨out, h, hout, fun s hs d hd => (((jumps_land h whole_push_pop).2.1 s hs).2 d hd).1⟩

end Splice
