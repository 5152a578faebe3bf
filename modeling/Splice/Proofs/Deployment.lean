import Splice.Proofs.Rewriting

namespace Splice

open Program

namespace Layout

-- The epilogue that a layout was read from ends in front of the payload: its seventh instruction, a
-- RETURN, does.
def InFront (init : List UInt8) (layout : Layout) : Prop :=
  ∃ i ret, (decode init).indexOf? layout.lengthPc = some i ∧ (decode init).get? (i + 6) = some ret ∧
    ret.pc < layout.runtimeOffset

structure Fronted (init front back : List UInt8) (layout : Layout) (length offset : Instruction) :
    Prop where
  bytes         : init.take layout.runtimeOffset = front ++ back
  whole         : (decode front).Whole
  found         : ∀ rest,
    firstEpilogue? ((decode front).instructions ++ rest) = some (length, offset)
  lengthPc      : (decode front).atPc? layout.lengthPc = some length
  offsetPc      : layout.offsetPc = offset.pc
  apart         : offset.pc ≠ length.pc
  runtimeOffset : offset.offset? = some layout.runtimeOffset

theorem exists_fronted {init deployed : List UInt8} {layout : Layout}
    (h : locate init deployed = .ok layout) (hf : layout.InFront init) :
    ∃ front back length offset, Fronted init front back layout length offset := by
  obtain ⟨length, offset, hfirst, htarget, -, -, hlength, hoffset, -⟩ := locate_eq_ok_iff.mp h
  have ⟨before, w, rest, hl, hw, hfound, hagain⟩ := exists_of_firstEpilogue? hfirst
  obtain ⟨dup, zero, copy, memory, ret, tail, rfl, hops⟩ := epilogue?_eq_some_iff.mp hfound
  obtain rfl : tail = [] := by simpa using hw
  obtain ⟨i, ret', hi, hret', hlt⟩ := hf
  -- The seventh instruction is the RETURN of the epilogue.
  obtain rfl : ret' = ret := by
    have hget : (decode init).get? before.length = some length := by
      simp [get?, hl]
    have hindex : (decode init).indexOf? layout.lengthPc = some before.length :=
      (tiled_decode init).indexOf?_eq_some_iff.mpr ⟨length, hget, hlength.symm⟩
    cases hi.symm.trans hindex
    simpa [get?, hl, List.getElem?_append_right] using hret'.symm
  have hdecode : decodeFrom 0 init =
      (before ++ [length, dup, offset, zero, copy, memory]) ++ ret' :: rest := by
    have : (decode init).instructions = decodeFrom 0 init := rfl
    simp [← this, hl]
  have hret : ret'.op.width = 0 := by simp [hops, Opcode.width]
  have htrunc : ret'.isTruncated = false :=
    Instruction.not_isTruncated_of_decodeFrom (hdecode ▸ List.mem_append_right _ List.mem_cons_self)
      hret
  obtain ⟨front, back, hinit, hfront, hwhole, hnext⟩ := exists_front_of_decodeFrom hdecode htrunc
  have hlist : (decode front).instructions =
      before ++ [length, dup, offset, zero, copy, memory, ret'] := by
    simp [decode, hfront]
  have hle : front.length ≤ layout.runtimeOffset := by
    simp only [Instruction.next] at hnext
    omega
  refine ⟨front, back.take (layout.runtimeOffset - front.length), length, offset, ?_, ?_, ?_, ?_,
    hoffset, ?_, htarget⟩
  · rw [hinit, List.take_append, List.take_of_length_le hle]
  · rw [Whole, decode, hfront]
    exact hwhole
  · intro rest'
    rw [hlist]
    exact hagain rest'
  · exact (tiled_decode front).atPc?_eq_some_iff.mpr ⟨by simp [hlist], hlength.symm⟩
  · intro hpc
    have ht := tiled_decode front
    have hindex : (decode front).indexOf? length.pc = some before.length :=
      ht.indexOf?_eq_some_iff.mpr ⟨length, by simp [get?, hlist], rfl⟩
    have hindex' : (decode front).indexOf? length.pc = some (before.length + 2) :=
      ht.indexOf?_eq_some_iff.mpr ⟨offset, by simp [get?, hlist], hpc⟩
    have := hindex.symm.trans hindex'
    simp at this

theorem Fronted.found_raised {init front back front' : List UInt8} {layout : Layout}
    {length offset : Instruction} (h : Fronted init front back layout length offset) {delta : Nat}
    (hdecode : ∀ c, decode (front' ++ c) = (decode (front ++ c)).raise delta [layout.lengthPc])
    (c : List UInt8) :
    firstEpilogue? (decode (front' ++ c)).instructions =
      some (length.raise delta [layout.lengthPc], offset) := by
  have hlength := pc_of_atPc? h.lengthPc
  have hraise : offset.raise delta [layout.lengthPc] = offset :=
    Instruction.raise_of_not_mem (by simpa [← hlength] using h.apart)
  have happend : decodeFrom 0 (front ++ c) =
      (decode front).instructions ++ decodeFrom (0 + front.length) c :=
    decodeFrom_append h.whole c
  rw [hdecode, raise, firstEpilogue?_map fun _ => Instruction.op_raise, decode, happend, h.found,
    Option.map_some, Prod.map_apply, hraise]

end Layout

section

variable {init deployed : List UInt8} {prelude : Prelude} {suffix : Nat} {out : Injection}

-- The constructor that an injection leaves still ends by copying out and returning the runtime code
-- behind it, as long as all of its epilogue lies in front of the payload to begin with.
theorem deploys_again (h : inject init deployed prelude suffix = .ok out)
    (hf : prelude.bytes = [] ∨ out.layout.InFront init) :
    Layout.locate out.initCode out.runtimeCode =
      .ok { out.layout with runtimeLength := out.layout.runtimeLength + prelude.size } := by
  obtain ⟨t₁, t₂, t₃, hi⟩ := injected_of_inject h
  rcases hf with hempty | hf
  case inl =>
    obtain ⟨hinit, hruntime⟩ := hi.eq_of_nil hempty
    simp [hinit, hruntime, hi.located, Prelude.size, hempty]
  case inr =>
    obtain ⟨front, back, length, offset, hfront⟩ := Layout.exists_fronted hi.located hf
    have hlength : length.pc = out.layout.lengthPc := pc_of_atPc? hfront.lengthPc
    have htrunc : length.isTruncated = false :=
      hfront.whole length (List.mem_of_find?_eq_some hfront.lengthPc)
    have hinit : (decode init).atPc? out.layout.lengthPc = some length := by
      have := Program.atPc?_append hfront.lengthPc htrunc (back ++ deployed)
      rwa [← List.append_assoc, ← hfront.bytes, ← Layout.eq_append_of_locate hi.located] at this
    have hpatch : (Patcher.patch (decode front) .length [out.layout.lengthPc]
        (.start prelude.size (front ++ back))).settle = .ok t₃ := by
      rw [Patcher.patch_congr (q := decode init), ← hfront.bytes, hi.length]
      simp [hfront.lengthPc, hinit]
    obtain ⟨h₃, hdelta, hpatched⟩ := (Patcher.raises_start prelude.size).patch hpatch
    obtain ⟨front', hcode, hsize, hdecode⟩ := h₃.code
    have hdelta : t₃.delta = prelude.size := hdelta
    have hpatched : ∀ pc, pc ∈ t₃.patched ↔ pc ∈ [out.layout.lengthPc] := by
      simp [hpatched, Patcher.start]
    simp only [hdelta, raise_congr hpatched] at hdecode
    obtain ⟨ins, hins, _, _, _, hwidth, hlt⟩ := h₃.patched _ ((hpatched _).mpr List.mem_cons_self)
    cases hins.symm.trans hfront.lengthPc
    rw [hdelta] at hlt
    have hoffset : (front' ++ back).length = out.layout.runtimeOffset := by
      have := congrArg List.length hfront.bytes
      rw [hi.length_front, List.length_append] at this
      rw [List.length_append, hsize, this]
    have hbytes : out.initCode = (front' ++ back) ++ out.runtimeCode := by
      rw [hi.initCode, hi.runtimeCode, hcode, List.append_assoc _ prelude.bytes]
    refine Layout.locate_eq_ok_iff.mpr ⟨length.raise prelude.size [out.layout.lengthPc], offset, ?_,
      hfront.runtimeOffset, ?_, ?_, ?_, hfront.offsetPc, ?_⟩
    · rw [hbytes, List.append_assoc]
      exact hfront.found_raised hdecode _
    · rw [hbytes, List.length_append, hoffset]
      exact Nat.le_add_right ..
    · rw [hbytes, List.drop_left' hoffset]
    · rw [Instruction.pc_raise, hlength]
    · obtain ⟨length', hinit', _, hvalue⟩ := Layout.exists_length_of_locate hi.located
      cases hinit.symm.trans hinit'
      have hraised : (length.raise prelude.size [out.layout.lengthPc]).value =
          length.value + prelude.size :=
        Instruction.value_raise (by simp [hlength]) hlt
      have hlt : length.value + prelude.size < BigEndian.bound 8 :=
        Nat.lt_of_lt_of_le hlt (BigEndian.bound_le_bound (by omega))
      rw [hvalue, Instruction.offset?_of_lt (by omega), Instruction.offset?_of_lt (by omega),
        hraised, Option.getD_some, Option.getD_some]

end

theorem deploys_again_hop :
    ∃ out, inject hopInit hop ⟨[0x60, 0x00, 0x50]⟩ 2 = .ok out ∧ out.layout.InFront hopInit ∧
      Layout.locate out.initCode [0x60, 0x00, 0x50, 0x60, 0x06, 0x56, 0x5b, 0xa2, 0x61] =
        .ok ⟨0, 9, 3, 11⟩ := by
  obtain ⟨out, h, hout, _⟩ := inject_hop
  have hlocate : Layout.locate hopInit hop = .ok ⟨0, 6, 3, 11⟩ := by
    rw [Layout.locate, decode_hopInit]
    decide +kernel
  obtain hlayout : out.layout = ⟨0, 6, 3, 11⟩ := by
    obtain ⟨_, _, _, hi⟩ := injected_of_inject h
    exact Except.ok.inj (hi.located.symm.trans hlocate)
  have hf : out.layout.InFront hopInit := by
    rw [hlayout, Layout.InFront, decode_hopInit]
    exact ⟨0, ⟨10, .ret, none⟩, by decide, rfl, by decide⟩
  have := deploys_again h (.inr hf)
  rw [hlayout, hout] at this
  exact ⟨out, h, hf, this⟩

-- A constructor whose last two bytes are the payload as well.
def sharedInit : List UInt8 := [0x60, 0x02, 0x80, 0x60, 0x09, 0x60, 0x00, 0x39, 0x60, 0x00, 0xf3]

def shared : List UInt8 := [0x00, 0xf3]

theorem inject_shared :
    ∃ out, inject sharedInit shared ⟨[0x5b]⟩ 0 = .ok out ∧
      out.initCode = [0x60, 0x03, 0x80, 0x60, 0x09, 0x60, 0x00, 0x39, 0x60, 0x5b, 0x00, 0xf3] := by
  have hinit : Program.decode sharedInit = ⟨[
      ⟨0, .push 1, some [0x02]⟩, ⟨2, .dup 1, none⟩, ⟨3, .push 1, some [0x09]⟩,
      ⟨5, .push 1, some [0x00]⟩, ⟨7, .codecopy, none⟩, ⟨8, .push 1, some [0x00]⟩,
      ⟨10, .ret, none⟩]⟩ := by cbv
  have hshared : Program.decode shared = ⟨[⟨0, .stop, none⟩, ⟨1, .ret, none⟩]⟩ := by cbv
  have hmap : (inject sharedInit shared ⟨[0x5b]⟩ 0).map (·.initCode) =
      .ok [0x60, 0x03, 0x80, 0x60, 0x09, 0x60, 0x00, 0x39, 0x60, 0x5b, 0x00, 0xf3] := by
    simp only [inject, Layout.locate, withoutMetadata, Nat.zero_le, if_true, Nat.sub_zero,
      List.take_length, bind, Except.bind, hshared, hinit]
    decide +kernel
  exact map_eq_ok_iff.mp hmap

theorem epilogue_lost_in_payload :
    ¬∀ (init deployed : List UInt8) (prelude : Prelude) (suffix : Nat) (out : Injection),
      inject init deployed prelude suffix = .ok out →
      Layout.locate out.initCode out.runtimeCode =
        .ok { out.layout with runtimeLength := out.layout.runtimeLength + prelude.size } := by
  intro h
  have ⟨out, hout, hbytes⟩ := inject_shared
  have hdecode : Program.decode
      [0x60, 0x03, 0x80, 0x60, 0x09, 0x60, 0x00, 0x39, 0x60, 0x5b, 0x00, 0xf3] = ⟨[
      ⟨0, .push 1, some [0x03]⟩, ⟨2, .dup 1, none⟩, ⟨3, .push 1, some [0x09]⟩,
      ⟨5, .push 1, some [0x00]⟩, ⟨7, .codecopy, none⟩, ⟨8, .push 1, some [0x5b]⟩,
      ⟨10, .stop, none⟩, ⟨11, .ret, none⟩]⟩ := by cbv
  have hfirst : Layout.firstEpilogue? (Program.decode out.initCode).instructions = none := by
    rw [hbytes, hdecode]
    decide
  have hlocate := h _ _ _ _ out hout
  simp [Layout.locate, hfirst] at hlocate

end Splice
