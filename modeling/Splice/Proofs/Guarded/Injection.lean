import Mathlib.Data.List.Perm.Subperm
import Splice.Proofs.Guarded.Patch
import Splice.Proofs.Guarded.Resolution

namespace Splice

namespace Resolution

variable {p : Program} {a : Analysis} {r : Resolution}

theorem pushes_of_mem_foldl {os : List Origin} (h : ∀ o ∈ os, ∃ n, p.Pushes o.pc n) {pc : Nat}
    (hpc : pc ∈ os.foldl (fun pcs o => insertAscending o.pc pcs) []) : ∃ n, p.Pushes pc n := by
  have hpc := (mem_foldl_pcs.mp hpc).resolve_right List.not_mem_nil
  obtain ⟨o, ho, rfl⟩ := List.mem_map.mp hpc
  exact h o ho

theorem Settles.pushes_jump (h : Settles p a r) : ∀ pc ∈ r.jumpOrigins, ∃ n, p.Pushes pc n := by
  refine fun _ => pushes_of_mem_foldl fun o ho => ?_
  obtain ⟨s, hs, ho⟩ := List.mem_flatMap.mp ho
  exact (h.jumps s hs).origins o.pc (List.mem_map_of_mem ho)

theorem Settles.pushes_copy (h : Settles p a r) : ∀ pc ∈ r.copyOrigins, ∃ n, p.Pushes pc n := by
  refine fun _ => pushes_of_mem_foldl fun o ho => ?_
  obtain ⟨s, hs, ho⟩ := List.mem_flatMap.mp ho
  exact (h.copies s hs).origins o.pc (List.mem_map_of_mem ho)

end Resolution

theorem Program.length_le_of_pushes {p : Program} {pcs : List Nat} (hn : pcs.Nodup)
    (h : ∀ pc ∈ pcs, ∃ n, p.Pushes pc n) : pcs.length ≤ p.size := by
  have hsub : pcs ⊆ p.instructions.map (·.pc) := by
    intro pc hpc
    have ⟨_, ins, hins, _⟩ := h pc hpc
    exact pc_of_atPc? hins ▸ List.mem_map_of_mem (List.mem_of_find?_eq_some hins)
  have := (List.subperm_of_subset hn hsub).length_le
  rwa [List.length_map] at this

namespace Guarded

def inject (init deployed : List UInt8) (prelude : Prelude) (suffix : Nat) : Guarded Injection := do
  let layout ← locate init deployed
  let program ← decode (← withoutMetadata deployed suffix)
  let resolution ← resolve program
  let runtime := Patcher.start prelude.size deployed
  let runtime ← settle (patch program .jump resolution.jumpOrigins runtime)
  let runtime ← settle (patch program .codecopy resolution.copyOrigins runtime)
  let initProgram ← decode init
  let front ← slice init 0 layout.runtimeOffset
  let constructor := Patcher.start prelude.size front
  let constructor ← settle (patch initProgram .length [layout.lengthPc] constructor)
  let runtimeCode ← concat prelude.bytes runtime.code
  let initCode ← concat (← concat constructor.code prelude.bytes) runtime.code
  return {
    initCode
    runtimeCode
    layout
    resolution
    patches := runtime.patches ++ constructor.patches
  }

theorem inject_safe {init deployed : List UInt8} {prelude : Prelude}
    (hinit : init.length < bufferLimit) (hdeployed : deployed.length < bufferLimit)
    (hprelude : prelude.size < bufferLimit) (suffix : Nat) :
    Safe (inject init deployed prelude suffix) (Splice.inject init deployed prelude suffix)
      fun _ => True := by
  have husize : 2 * bufferLimit ≤ usize := by decide
  refine (locate_safe hinit deployed).bind fun layout hlayout _ => ?_
  refine (withoutMetadata_safe deployed suffix).bind fun stripped _ hstripped => ?_
  have hp : (Program.decode stripped).Sized := Program.sized_decode (by omega)
  refine .after (decode_eq (by omega)) ?_
  refine (resolve_safe hp).bind fun r hr _ => ?_
  have hsize := hp.size
  have ⟨a, _, hsettles⟩ := Resolution.settles_of_resolve hp.tiled hr
  have hjumps := Program.length_le_of_pushes (Resolution.nodup_jumpOrigins r) hsettles.pushes_jump
  have hcopies := Program.length_le_of_pushes (Resolution.nodup_copyOrigins r) hsettles.pushes_copy
  refine (patch_safe hp hsettles.pushes_jump (by omega) hdeployed hprelude).bind
    fun t₁ _ ⟨hlen₁, hdelta₁⟩ => ?_
  refine (patch_safe hp hsettles.pushes_copy (by omega) (hlen₁ ▸ hdeployed)
    (hdelta₁ ▸ hprelude)).bind fun t₂ _ ⟨hlen₂, _⟩ => ?_
  have ⟨_, _, _, _, hoffset, _⟩ := Layout.locate_eq_ok_iff.mp hlayout
  have hslice := slice_eq (Nat.zero_le _) hoffset
  rw [List.drop_zero] at hslice
  refine .after (decode_eq hinit) (.after hslice ?_)
  -- Both parts of the init code are shorter than the whole.
  have hparts : (init.take layout.runtimeOffset).length + deployed.length = init.length := by
    have := congrArg List.length (Layout.eq_append_of_locate hlayout)
    rw [List.length_append] at this
    exact this.symm
  have hlength : ∀ pc ∈ [layout.lengthPc], ∃ n, (Program.decode init).Pushes pc n := by
    have ⟨push, hpush, hop, _⟩ := Layout.exists_length_of_locate hlayout
    exact List.forall_mem_singleton.mpr ⟨push.value, push, hpush, hop, rfl⟩
  have hone : [layout.lengthPc].length < usize := Nat.one_lt_two_pow (by decide)
  have hfront : (init.take layout.runtimeOffset).length < bufferLimit := by omega
  refine (patch_safe (Program.sized_decode hinit) hlength hone hfront hprelude).bind
    fun t₃ _ ⟨hlen₃, _⟩ => ?_
  have hstart (code : List UInt8) : (Patcher.start prelude.size code).code = code := rfl
  rw [hstart] at hlen₁ hlen₃
  rw [Prelude.size] at hprelude
  refine .after (concat_eq (by omega)) (.after (concat_eq (by omega)) (.after (concat_eq ?_) ?_))
  · rw [List.length_append]
    omega
  · exact .ok trivial

end Guarded

-- An injection never blames itself: it succeeds, or it fails for something that is wrong with its
-- input, and no operation on the way leaves its range.
theorem blames_only_input {init deployed : List UInt8} {prelude : Prelude}
    (hinit : init.length < 2 ^ 63) (hdeployed : deployed.length < 2 ^ 63)
    (hprelude : prelude.size < 2 ^ 63) (suffix : Nat) :
    (∃ out, inject init deployed prelude suffix = .ok out ∧
      Guarded.inject init deployed prelude suffix = pure out) ∨
    ∃ e, inject init deployed prelude suffix = .error e ∧
      Guarded.inject init deployed prelude suffix = throw e ∧
      e.kind ∈ [.malformedInput, .unsupportedProgram, .stackUnderflow, .stackOverflow,
        .resourceExhaustion] := by
  have ⟨hagrees, hforeseen, _⟩ := Guarded.inject_safe hinit hdeployed hprelude suffix
  rw [hagrees]
  cases h : inject init deployed prelude suffix with
  | ok out => exact .inl ⟨out, rfl, rfl⟩
  | error e => exact .inr ⟨e, rfl, rfl, hforeseen e h⟩

theorem blames_only_input_hop :
    hopInit.length < 2 ^ 63 ∧ hop.length < 2 ^ 63 ∧
      ∃ out, inject hopInit hop ⟨[0x60, 0x00, 0x50]⟩ 2 = .ok out ∧
        Guarded.inject hopInit hop ⟨[0x60, 0x00, 0x50]⟩ 2 = pure out := by
  have hinit : hopInit.length < 2 ^ 63 := by decide
  have hdeployed : hop.length < 2 ^ 63 := by decide
  have hprelude : Prelude.size ⟨[0x60, 0x00, 0x50]⟩ < 2 ^ 63 := by decide
  refine ⟨hinit, hdeployed, ?_⟩
  rcases blames_only_input hinit hdeployed hprelude 2 with h | ⟨e, he, _⟩
  case inl => exact h
  case inr =>
    have ⟨out, hout, _⟩ := inject_hop
    simp [hout] at he

end Splice
