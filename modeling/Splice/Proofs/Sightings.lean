import Mathlib.Data.List.Sort
import Splice.Proofs.Observation

namespace Splice

namespace Origin

def insertAll (source : Source) (os : List Origin) (seen : List (Nat × Bool)) : List Origin :=
  seen.foldl (fun os push => Origin.insert ⟨push.1, push.2, source⟩ os) os

structure Gathers (source : Source) (seen : List (Nat × Bool)) (os : List Origin) : Prop where
  ascending : os.Pairwise (·.pc < ·.pc)
  mem_iff   : ∀ o, o ∈ os ↔ (∃ copied, (o.pc, copied) ∈ seen) ∧
    (o.duplicated ↔ (o.pc, true) ∈ seen) ∧ o.source = source

section

variable {source : Source} {os : List Origin} {seen : List (Nat × Bool)}

theorem source_of_mem_insertAll (hs : ∀ o ∈ os, o.source = source) :
    ∀ o ∈ insertAll source os seen, o.source = source := by
  induction seen generalizing os with
  | nil => exact hs
  | cons push seen ih => exact ih (source_of_mem_insert rfl hs)

theorem ascending_insertAll (h : (os.map (·.pc)).Pairwise (· < ·)) :
    ((insertAll source os seen).map (·.pc)).Pairwise (· < ·) := by
  induction seen generalizing os with
  | nil => exact h
  | cons push seen ih =>
    refine ih ?_
    rw [pcs_insert]
    exact pairwise_insertAscending h

theorem listed_insertAll {pc : Nat} {duplicated : Bool} :
    Listed pc duplicated (insertAll source os seen) ↔
      (∃ push ∈ seen, push.1 = pc ∧ (duplicated → push.2)) ∨ Listed pc duplicated os := by
  induction seen generalizing os with
  | nil => simp [insertAll]
  | cons push seen ih =>
    rw [insertAll, List.foldl_cons, ← insertAll, ih, listed_insert]
    simp [or_assoc, or_left_comm]

theorem eq_of_pc_eq (h : os.Pairwise (·.pc < ·.pc)) {o q : Origin} (ho : o ∈ os) (hq : q ∈ os)
    (hpc : o.pc = q.pc) : o = q :=
  List.inj_on_of_nodup_map (List.pairwise_map.mpr (h.imp Nat.ne_of_lt)) ho hq hpc

theorem gathers_insertAll (source : Source) (seen : List (Nat × Bool)) :
    Gathers source seen (insertAll source [] seen) := by
  have hascending : (insertAll source [] seen).Pairwise (·.pc < ·.pc) :=
    List.pairwise_map.mp (ascending_insertAll .nil)
  have hsource : ∀ o ∈ insertAll source [] seen, o.source = source :=
    source_of_mem_insertAll (by simp)
  have hpush {pc : Nat} : Listed pc false (insertAll source [] seen) ↔
      ∃ copied, (pc, copied) ∈ seen := by
    simp [listed_insertAll]
  have hcopied {pc : Nat} : Listed pc true (insertAll source [] seen) ↔ (pc, true) ∈ seen := by
    simp [listed_insertAll]
  -- An origin is duplicated exactly if it is listed as such.
  have hduplicated : ∀ o ∈ insertAll source [] seen, (o.duplicated ↔ (o.pc, true) ∈ seen) := by
    intro o ho
    rw [← hcopied]
    constructor
    · exact fun hdup => ⟨o, ho, rfl, fun _ => hdup⟩
    · rintro ⟨q, hq, hpc, hdup⟩
      exact eq_of_pc_eq hascending hq ho hpc ▸ hdup rfl
  refine ⟨hascending, fun o => ⟨fun ho => ⟨?_, hduplicated o ho, hsource o ho⟩, ?_⟩⟩
  · exact hpush.mp ⟨o, ho, rfl, fun h => nomatch h⟩
  · rintro ⟨hseen, hdup, hs⟩
    have ⟨q, hq, hpc, _⟩ := hpush.mpr hseen
    have heq : o.duplicated = q.duplicated :=
      Bool.eq_iff_iff.mpr (hdup.trans (hpc ▸ hduplicated q hq).symm)
    have hsame : o.source = q.source := hs.trans (hsource q hq).symm
    obtain rfl : o = q := by
      cases o
      cases q
      exact Origin.mk.injEq .. ▸ ⟨hpc.symm, heq, hsame⟩
    exact hq

theorem Gathers.eq {os os' : List Origin} {seen seen' : List (Nat × Bool)}
    (h : Gathers source seen os) (h' : Gathers source seen' os')
    (hs : ∀ push, push ∈ seen ↔ push ∈ seen') : os = os' := by
  have : Std.Antisymm fun o q : Origin => o.pc < q.pc := ⟨fun _ _ h h' => absurd h (by omega)⟩
  have : Std.Irrefl fun o q : Origin => o.pc < q.pc := ⟨fun _ => by omega⟩
  refine h.ascending.eq_of_mem_iff h'.ascending fun o => ?_
  simp [h.mem_iff, h'.mem_iff, hs]

end

end Origin

-- What one passage through a jump shows of it: the push of the target, whether its word was copied
-- on the way, and where the jump led if it was taken.
structure JumpSighting where
  push        : Nat
  copied      : Bool
  destination : Option Nat
  deriving DecidableEq

namespace JumpSite

def recordAll (s : JumpSite) (source : Source) (seen : List JumpSighting) : JumpSite :=
  seen.foldl (fun s x => s.record ⟨x.push, x.copied, source⟩ x.destination) s

structure Tells (pc : Nat) (op : Opcode) (source : Source) (seen : List JumpSighting)
    (s : JumpSite) : Prop where
  pc               : s.pc = pc
  op               : s.op = op
  origins          : Origin.Gathers source (seen.map fun x => (x.push, x.copied)) s.origins
  ascending        : s.destinations.Pairwise (· < ·)
  mem_destinations : ∀ d, d ∈ s.destinations ↔ ∃ x ∈ seen, x.destination = some d

variable {s : JumpSite} {source : Source} {seen : List JumpSighting}

@[simp]
theorem recordAll_cons {x : JumpSighting} : s.recordAll source (x :: seen) =
    (s.record ⟨x.push, x.copied, source⟩ x.destination).recordAll source seen :=
  rfl

@[simp]
theorem pc_recordAll : (s.recordAll source seen).pc = s.pc := by
  induction seen generalizing s with
  | nil => rfl
  | cons x seen ih => simp [ih]

@[simp]
theorem op_recordAll : (s.recordAll source seen).op = s.op := by
  induction seen generalizing s with
  | nil => rfl
  | cons x seen ih => simp [ih]

theorem origins_recordAll : (s.recordAll source seen).origins =
    Origin.insertAll source s.origins (seen.map fun x => (x.push, x.copied)) := by
  induction seen generalizing s with
  | nil => rfl
  | cons x seen ih =>
    rw [recordAll_cons, ih, origins_record]
    rfl

theorem ascending_record (h : s.destinations.Pairwise (· < ·)) (o : Origin) (d : Option Nat) :
    (s.record o d).destinations.Pairwise (· < ·) := by
  cases d with
  | none => exact h
  | some d => exact pairwise_insertAscending h

theorem ascending_recordAll (h : s.destinations.Pairwise (· < ·)) :
    (s.recordAll source seen).destinations.Pairwise (· < ·) := by
  induction seen generalizing s with
  | nil => exact h
  | cons x seen ih => exact ih (ascending_record h _ _)

theorem mem_destinations_recordAll {d : Nat} : d ∈ (s.recordAll source seen).destinations ↔
    (∃ x ∈ seen, x.destination = some d) ∨ d ∈ s.destinations := by
  induction seen generalizing s with
  | nil => simp [recordAll]
  | cons x seen ih => simp [ih, mem_destinations_record, or_assoc, or_left_comm]

theorem tells_recordAll (pc : Nat) (op : Opcode) (source : Source) (seen : List JumpSighting) :
    Tells pc op source seen ((fresh pc op).recordAll source seen) where
  pc := pc_recordAll
  op := op_recordAll
  origins := origins_recordAll ▸ Origin.gathers_insertAll ..
  ascending := ascending_recordAll .nil
  mem_destinations d := by simp [mem_destinations_recordAll, fresh]

theorem Tells.eq {pc : Nat} {op : Opcode} {seen' : List JumpSighting} {s' : JumpSite}
    (h : Tells pc op source seen s) (h' : Tells pc op source seen' s')
    (hs : ∀ x, x ∈ seen ↔ x ∈ seen') : s = s' := by
  have horigins : s.origins = s'.origins := h.origins.eq h'.origins fun push => by simp [hs]
  have hdestinations : s.destinations = s'.destinations :=
    h.ascending.eq_of_mem_iff h'.ascending fun d => by
      simp [h.mem_destinations, h'.mem_destinations, hs]
  cases s
  cases s'
  exact JumpSite.mk.injEq .. ▸
    ⟨h.pc.trans h'.pc.symm, h.op.trans h'.op.symm, horigins, hdestinations⟩

end JumpSite

inductive CopySighting
  | pushed (push : Nat) (copied : Bool)
  | computed
  | dynamic
  deriving DecidableEq

namespace CopySighting

def source : CopySighting → CopySource
  | pushed push copied => .pushed ⟨push, copied, .traced⟩
  | computed => .computed
  | dynamic => .dynamic

def push? : CopySighting → Option (Nat × Bool)
  | pushed push copied => some (push, copied)
  | computed | dynamic => none

end CopySighting

namespace CopySite

def recordAll (s : CopySite) (seen : List CopySighting) : CopySite :=
  seen.foldl (fun s x => s.record x.source) s

structure Tells (pc : Nat) (seen : List CopySighting) (s : CopySite) : Prop where
  pc       : s.pc = pc
  origins  : Origin.Gathers .traced (seen.filterMap (·.push?)) s.origins
  computed : s.computed ↔ .computed ∈ seen
  dynamic  : s.dynamic ↔ .dynamic ∈ seen

variable {s : CopySite} {seen : List CopySighting}

@[simp]
theorem recordAll_cons {x : CopySighting} :
    s.recordAll (x :: seen) = (s.record x.source).recordAll seen :=
  rfl

@[simp]
theorem pc_recordAll : (s.recordAll seen).pc = s.pc := by
  induction seen generalizing s with
  | nil => rfl
  | cons x seen ih => simp [ih]

theorem origins_recordAll : (s.recordAll seen).origins =
    Origin.insertAll .traced s.origins (seen.filterMap (·.push?)) := by
  induction seen generalizing s with
  | nil => rfl
  | cons x seen ih => cases x <;> exact ih

theorem computed_recordAll :
    (s.recordAll seen).computed ↔ .computed ∈ seen ∨ s.computed := by
  induction seen generalizing s with
  | nil => simp [recordAll]
  | cons x seen ih => cases x <;> simp [ih, record, CopySighting.source]

theorem dynamic_recordAll : (s.recordAll seen).dynamic ↔ .dynamic ∈ seen ∨ s.dynamic := by
  induction seen generalizing s with
  | nil => simp [recordAll]
  | cons x seen ih => cases x <;> simp [ih, record, CopySighting.source]

theorem tells_recordAll (pc : Nat) (seen : List CopySighting) :
    Tells pc seen ((fresh pc).recordAll seen) where
  pc := pc_recordAll
  origins := origins_recordAll ▸ Origin.gathers_insertAll ..
  computed := by simp [computed_recordAll, fresh]
  dynamic := by simp [dynamic_recordAll, fresh]

theorem Tells.eq {pc : Nat} {seen' : List CopySighting} {s' : CopySite} (h : Tells pc seen s)
    (h' : Tells pc seen' s') (hs : ∀ x, x ∈ seen ↔ x ∈ seen') : s = s' := by
  have horigins : s.origins = s'.origins := h.origins.eq h'.origins fun push => by simp [hs]
  have hcomputed : s.computed = s'.computed :=
    Bool.eq_iff_iff.mpr (h.computed.trans ((hs _).trans h'.computed.symm))
  have hdynamic : s.dynamic = s'.dynamic :=
    Bool.eq_iff_iff.mpr (h.dynamic.trans ((hs _).trans h'.dynamic.symm))
  cases s
  cases s'
  exact CopySite.mk.injEq .. ▸ ⟨h.pc.trans h'.pc.symm, horigins, hcomputed, hdynamic⟩

end CopySite

-- A site tells the pushes that were seen, in ascending order and each as duplicated if it ever was,
-- where its jump led, and what else there was to see. It tells neither in which order nor how often
-- it was seen.
theorem sites_remember_sets (pc : Nat) (op : Opcode) (source : Source) (seen : List JumpSighting)
    (copies : List CopySighting) :
    (JumpSite.Tells pc op source seen ((JumpSite.fresh pc op).recordAll source seen) ∧
      ∀ seen' : List JumpSighting, (∀ x, x ∈ seen' ↔ x ∈ seen) →
        (JumpSite.fresh pc op).recordAll source seen' =
          (JumpSite.fresh pc op).recordAll source seen) ∧
    CopySite.Tells pc copies ((CopySite.fresh pc).recordAll copies) ∧
      ∀ copies' : List CopySighting, (∀ x, x ∈ copies' ↔ x ∈ copies) →
        (CopySite.fresh pc).recordAll copies' = (CopySite.fresh pc).recordAll copies :=
  ⟨⟨JumpSite.tells_recordAll .., fun _ h =>
      (JumpSite.tells_recordAll ..).eq (JumpSite.tells_recordAll ..) h⟩,
    CopySite.tells_recordAll .., fun _ h =>
      (CopySite.tells_recordAll ..).eq (CopySite.tells_recordAll ..) h⟩

def passages : List JumpSighting := [⟨7, false, some 12⟩, ⟨3, false, none⟩, ⟨7, true, some 20⟩]

def passagesAgain : List JumpSighting :=
  [⟨7, true, some 20⟩, ⟨3, false, none⟩, ⟨7, false, some 12⟩, ⟨7, true, some 20⟩]

def offsets : List CopySighting := [.pushed 5 true, .computed, .pushed 2 false]

def offsetsAgain : List CopySighting := [.computed, .pushed 2 false, .pushed 5 true, .computed]

theorem sites_remember_sets_passages :
    (∀ x, x ∈ passagesAgain ↔ x ∈ passages) ∧
      (JumpSite.fresh 22 .jumpi).recordAll .traced passagesAgain =
        ⟨22, .jumpi, [⟨3, false, .traced⟩, ⟨7, true, .traced⟩], [12, 20]⟩ ∧
      (∀ x, x ∈ offsetsAgain ↔ x ∈ offsets) ∧
      (CopySite.fresh 22).recordAll offsetsAgain =
        ⟨22, [⟨2, false, .traced⟩, ⟨5, true, .traced⟩], true, false⟩ := by
  have hpassages : ∀ x, x ∈ passagesAgain ↔ x ∈ passages := by
    simp [passagesAgain, passages]
    tauto
  have hoffsets : ∀ x, x ∈ offsetsAgain ↔ x ∈ offsets := by
    simp [offsetsAgain, offsets]
    tauto
  have hremember := sites_remember_sets 22 .jumpi .traced passages offsets
  exact ⟨hpassages, hremember.1.2 _ hpassages, hoffsets, hremember.2.2 _ hoffsets⟩

end Splice
