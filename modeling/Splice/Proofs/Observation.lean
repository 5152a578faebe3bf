import Mathlib.Data.List.Forall2
import Mathlib.Tactic.Tauto
import Splice.Analysis

namespace Splice

theorem insertAscending_comm (m n : Nat) (l : List Nat) :
    insertAscending m (insertAscending n l) = insertAscending n (insertAscending m l) := by
  induction l with
  | nil => grind [insertAscending]
  | cons k ks ih => grind [insertAscending]

@[simp]
theorem insertAscending_self (n : Nat) (l : List Nat) :
    insertAscending n (insertAscending n l) = insertAscending n l := by
  induction l with
  | nil => simp [insertAscending]
  | cons k ks ih => grind [insertAscending]

namespace Origin

def Listed (pc : Nat) (duplicated : Bool) (os : List Origin) : Prop :=
  ∃ o ∈ os, o.pc = pc ∧ (duplicated → o.duplicated)

@[simp]
theorem listed_nil {pc : Nat} {duplicated : Bool} : ¬Listed pc duplicated [] := by
  simp [Listed]

@[simp]
theorem listed_cons {o : Origin} {os : List Origin} {pc : Nat} {duplicated : Bool} :
    Listed pc duplicated (o :: os) ↔
      (o.pc = pc ∧ (duplicated → o.duplicated)) ∨ Listed pc duplicated os := by
  simp [Listed]

theorem listed_insert {o : Origin} {os : List Origin} {pc : Nat} {duplicated : Bool} :
    Listed pc duplicated (o.insert os) ↔
      (o.pc = pc ∧ (duplicated → o.duplicated)) ∨ Listed pc duplicated os := by
  induction os with
  | nil => simp [insert]
  | cons p ps ih =>
    simp only [insert]
    split
    case isTrue => simp
    split
    case isTrue h =>
      cases duplicated <;> simp [h]
      tauto
    case isFalse => simp [ih, or_left_comm]

theorem insert_comm {o₁ o₂ : Origin} (h : o₁.source = o₂.source) (os : List Origin) :
    o₁.insert (o₂.insert os) = o₂.insert (o₁.insert os) := by
  have ⟨pc₁, d₁, s₁⟩ := o₁
  have ⟨pc₂, d₂, s₂⟩ := o₂
  obtain rfl : s₁ = s₂ := h
  induction os with
  | nil => grind [insert]
  | cons p ps ih => grind [insert]

@[simp]
theorem insert_self (o : Origin) (os : List Origin) : o.insert (o.insert os) = o.insert os := by
  induction os with
  | nil => simp [insert]
  | cons p ps ih =>
    simp only [insert]
    split
    case isTrue => simp [insert]
    split
    case isTrue h => simp [insert, h]
    case isFalse => simp_all [insert]

theorem source_of_mem_insert {source : Source} {o : Origin} {os : List Origin}
    (ho : o.source = source) (hs : ∀ q ∈ os, q.source = source) :
    ∀ q ∈ o.insert os, q.source = source := by
  induction os with
  | nil => simpa [insert] using ho
  | cons r rs ih =>
    obtain ⟨hr, hs⟩ := List.forall_mem_cons.mp hs
    simp only [insert]
    split
    case isTrue => simp_all
    split
    case isTrue => simp_all
    case isFalse => exact List.forall_mem_cons.mpr ⟨hr, ih hs⟩

end Origin

namespace JumpSite

theorem record_comm {o₁ o₂ : Origin} (h : o₁.source = o₂.source) (s : JumpSite)
    (d₁ d₂ : Option Nat) : (s.record o₁ d₁).record o₂ d₂ = (s.record o₂ d₂).record o₁ d₁ := by
  cases d₁ <;> cases d₂ <;> simp [record, Origin.insert_comm h, insertAscending_comm]

@[simp]
theorem record_self (s : JumpSite) (o : Origin) (d : Option Nat) :
    (s.record o d).record o d = s.record o d := by
  cases d <;> simp [record]

theorem mem_destinations_record {s : JumpSite} {o : Origin} {d : Option Nat} {n : Nat} :
    n ∈ (s.record o d).destinations ↔ d = some n ∨ n ∈ s.destinations := by
  cases d <;> simp [record, mem_insertAscending_iff, eq_comm]

structure Within (s t : JumpSite) : Prop where
  pc           : s.pc = t.pc
  op           : s.op = t.op
  origins      : ∀ pc dup, Origin.Listed pc dup s.origins → Origin.Listed pc dup t.origins
  destinations : s.destinations ⊆ t.destinations

theorem Within.record {s t : JumpSite} (h : Within s t) (o : Origin) (d : Option Nat) :
    Within (s.record o d) (t.record o d) where
  pc := by simp [h.pc]
  op := by simp [h.op]
  origins pc dup := by
    simp only [origins_record, Origin.listed_insert]
    exact Or.imp_right (h.origins pc dup)
  destinations n := by
    simp only [mem_destinations_record]
    exact Or.imp_right (h.destinations ·)

theorem Within.refl (s : JumpSite) : Within s s :=
  ⟨rfl, rfl, fun _ _ => id, fun _ => id⟩

theorem Within.recorded {s t : JumpSite} (h : Within s t) (o : Origin) (d : Option Nat) :
    Within s (t.record o d) where
  pc := by simp [h.pc]
  op := by simp [h.op]
  origins pc dup hl := by
    rw [origins_record, Origin.listed_insert]
    exact .inr (h.origins pc dup hl)
  destinations _ hm := mem_destinations_record.mpr (.inr (h.destinations hm))

end JumpSite

namespace CopySource

def Traced : CopySource → Prop
  | pushed origin => origin.source = .traced
  | computed | dynamic => True

end CopySource

namespace CopySite

theorem record_comm {c₁ c₂ : CopySource} (h₁ : c₁.Traced) (h₂ : c₂.Traced) (s : CopySite) :
    (s.record c₁).record c₂ = (s.record c₂).record c₁ := by
  cases c₁ <;> cases c₂ <;> simp_all [record, CopySource.Traced, Origin.insert_comm]

@[simp]
theorem record_self (s : CopySite) (c : CopySource) : (s.record c).record c = s.record c := by
  cases c <;> simp [record]

structure Within (s t : CopySite) : Prop where
  pc       : s.pc = t.pc
  origins  : ∀ pc dup, Origin.Listed pc dup s.origins → Origin.Listed pc dup t.origins
  computed : s.computed → t.computed
  dynamic  : s.dynamic → t.dynamic

theorem Within.record {s t : CopySite} (h : Within s t) (c : CopySource) :
    Within (s.record c) (t.record c) := by
  cases c
  case pushed o =>
    refine ⟨h.pc, fun pc dup => ?_, h.computed, h.dynamic⟩
    simp only [CopySite.record, Origin.listed_insert]
    exact Or.imp_right (h.origins pc dup)
  case computed => exact ⟨h.pc, h.origins, id, h.dynamic⟩
  case dynamic => exact ⟨h.pc, h.origins, h.computed, id⟩

theorem Within.refl (s : CopySite) : Within s s :=
  ⟨rfl, fun _ _ => id, id, id⟩

theorem Within.recorded {s t : CopySite} (h : Within s t) (c : CopySource) :
    Within s (t.record c) := by
  cases c
  case pushed o =>
    refine ⟨h.pc, fun pc dup hl => ?_, h.computed, h.dynamic⟩
    simp only [CopySite.record, Origin.listed_insert]
    exact .inr (h.origins pc dup hl)
  case computed => exact ⟨h.pc, h.origins, fun _ => rfl, h.dynamic⟩
  case dynamic => exact ⟨h.pc, h.origins, h.computed, fun _ => rfl⟩

end CopySite

namespace Observation

def Traced : Observation → Prop
  | jump _ origin _ => origin.source = .traced
  | copy _ source => source.Traced

end Observation

namespace Analysis

def withStats (a : Analysis) (stats : Stats) : Analysis :=
  { a with stats }

@[simp]
theorem withStats_stats (a : Analysis) : a.withStats a.stats = a :=
  rfl

@[simp]
theorem withStats_withStats (a : Analysis) (t t' : Stats) :
    (a.withStats t).withStats t' = a.withStats t' :=
  rfl

@[simp]
theorem record_withStats (a : Analysis) (t : Stats) (o : Observation) :
    (a.withStats t).record o = (a.record o).withStats t := by
  cases o <;> rfl

theorem record_comm {o₁ o₂ : Observation} (h₁ : o₁.Traced) (h₂ : o₂.Traced) (a : Analysis) :
    (a.record o₁).record o₂ = (a.record o₂).record o₁ := by
  cases o₁ <;> cases o₂
  case jump.jump pc₁ o₁ d₁ pc₂ o₂ d₂ =>
    simp only [record, List.map_map, Analysis.mk.injEq, and_true]
    refine List.map_congr_left fun s _ => ?_
    have := JumpSite.record_comm (h₁.trans h₂.symm) s d₁ d₂
    by_cases s.pc = pc₁ <;> by_cases s.pc = pc₂ <;> simp_all
  case copy.copy pc₁ c₁ pc₂ c₂ =>
    simp only [record, List.map_map, Analysis.mk.injEq, and_true, true_and]
    refine List.map_congr_left fun s _ => ?_
    have := CopySite.record_comm h₁ h₂ s
    by_cases s.pc = pc₁ <;> by_cases s.pc = pc₂ <;> simp_all
  all_goals rfl

@[simp]
theorem record_self (a : Analysis) (o : Observation) : (a.record o).record o = a.record o := by
  cases o
  case jump pc o d =>
    simp only [record, List.map_map, Analysis.mk.injEq, and_true]
    refine List.map_congr_left fun s _ => ?_
    by_cases s.pc = pc <;> simp_all
  case copy pc c =>
    simp only [record, List.map_map, Analysis.mk.injEq, and_true, true_and]
    refine List.map_congr_left fun s _ => ?_
    by_cases s.pc = pc <;> simp_all

def Knows (a : Analysis) (o : Observation) : Prop :=
  a.record o = a

theorem knows_record_self (a : Analysis) (o : Observation) : (a.record o).Knows o :=
  record_self a o

theorem Knows.jump {a : Analysis} {pc : Nat} {o : Origin} {d : Option Nat}
    (h : a.Knows (.jump pc o d)) {s : JumpSite} (hs : s ∈ a.jumps) (hpc : s.pc = pc) :
    s.record o d = s := by
  have h := List.map_inj_left.mp ((congrArg jumps h).trans (List.map_id _).symm) s hs
  simpa [hpc] using h

theorem Knows.copy {a : Analysis} {pc : Nat} {c : CopySource} (h : a.Knows (.copy pc c))
    {s : CopySite} (hs : s ∈ a.copies) (hpc : s.pc = pc) : s.record c = s := by
  have h := List.map_inj_left.mp ((congrArg copies h).trans (List.map_id _).symm) s hs
  simpa [hpc] using h

@[simp]
theorem knows_withStats {a : Analysis} {t : Stats} {o : Observation} :
    (a.withStats t).Knows o ↔ a.Knows o := by
  constructor
  case mp =>
    intro h
    have h := congrArg (·.withStats a.stats) h
    rwa [record_withStats, withStats_withStats, withStats_withStats, withStats_stats,
      ← stats_record a o, withStats_stats] at h
  case mpr => exact fun h => (record_withStats a t o).trans (congrArg (·.withStats t) h)

def recordAll (a : Analysis) (seen : List Observation) : Analysis :=
  seen.foldl record a

@[simp]
theorem recordAll_nil (a : Analysis) : a.recordAll [] = a :=
  rfl

@[simp]
theorem recordAll_cons (a : Analysis) (o : Observation) (seen : List Observation) :
    a.recordAll (o :: seen) = (a.record o).recordAll seen :=
  rfl

theorem recordAll_append (a : Analysis) (seen seen' : List Observation) :
    a.recordAll (seen ++ seen') = (a.recordAll seen).recordAll seen' :=
  List.foldl_append

@[simp]
theorem recordAll_withStats (a : Analysis) (t : Stats) (seen : List Observation) :
    (a.withStats t).recordAll seen = (a.recordAll seen).withStats t := by
  induction seen generalizing a with
  | nil => rfl
  | cons o seen ih => simp [ih]

section

variable {a : Analysis} {o : Observation} {seen seen' : List Observation}

theorem record_recordAll (h : o.Traced) (hs : ∀ o ∈ seen, o.Traced) :
    (a.record o).recordAll seen = (a.recordAll seen).record o := by
  induction seen generalizing a with
  | nil => rfl
  | cons o' seen ih =>
    have ⟨ho', hs⟩ := List.forall_mem_cons.mp hs
    rw [recordAll_cons, recordAll_cons, record_comm h ho', ih hs]

theorem recordAll_comm (h : ∀ o ∈ seen, o.Traced) (h' : ∀ o ∈ seen', o.Traced) :
    (a.recordAll seen).recordAll seen' = (a.recordAll seen').recordAll seen := by
  induction seen' generalizing a with
  | nil => rfl
  | cons o seen' ih =>
    have ⟨ho, h'⟩ := List.forall_mem_cons.mp h'
    rw [recordAll_cons, recordAll_cons, ← record_recordAll ho h, ih h']

theorem Knows.recordAll (hk : a.Knows o) (h : o.Traced) (hs : ∀ o ∈ seen, o.Traced) :
    (a.recordAll seen).Knows o := by
  rw [Knows, ← record_recordAll h hs, hk]

theorem recordAll_eq_self (h : ∀ o ∈ seen, a.Knows o) : a.recordAll seen = a := by
  induction seen with
  | nil => rfl
  | cons o seen ih =>
    have ⟨ho, h⟩ := List.forall_mem_cons.mp h
    rw [recordAll_cons, ho, ih h]

theorem recordAll_eq (h : ∀ o ∈ seen, o.Traced) (h' : ∀ o ∈ seen', o.Traced)
    (hk : ∀ o ∈ seen, (a.recordAll seen').Knows o)
    (hk' : ∀ o ∈ seen', (a.recordAll seen).Knows o) : a.recordAll seen = a.recordAll seen' :=
  calc
    _ = (a.recordAll seen).recordAll seen' := (recordAll_eq_self hk').symm
    _ = (a.recordAll seen').recordAll seen := recordAll_comm h h'
    _ = _ := recordAll_eq_self hk

end

structure Within (a b : Analysis) : Prop where
  jumps  : List.Forall₂ JumpSite.Within a.jumps b.jumps
  copies : List.Forall₂ CopySite.Within a.copies b.copies

namespace Within

theorem refl (a : Analysis) : Within a a where
  jumps := List.forall₂_same.mpr fun _ _ => .refl _
  copies := List.forall₂_same.mpr fun _ _ => .refl _

theorem record {a b : Analysis} (h : Within a b) (o : Observation) :
    Within (a.record o) (b.record o) := by
  cases o
  case jump pc o d =>
    refine ⟨?_, h.copies⟩
    simp only [Analysis.record, List.forall₂_map_left_iff, List.forall₂_map_right_iff]
    refine h.jumps.imp fun s t hs => ?_
    by_cases ht : t.pc = pc
    case pos => simpa [hs.pc, ht] using hs.record o d
    case neg => simpa [hs.pc, ht] using hs
  case copy pc c =>
    refine ⟨h.jumps, ?_⟩
    simp only [Analysis.record, List.forall₂_map_left_iff, List.forall₂_map_right_iff]
    refine h.copies.imp fun s t hs => ?_
    by_cases ht : t.pc = pc
    case pos => simpa [hs.pc, ht] using hs.record c
    case neg => simpa [hs.pc, ht] using hs

theorem recordAll {a b : Analysis} (h : Within a b) (seen : List Observation) :
    Within (a.recordAll seen) (b.recordAll seen) := by
  induction seen generalizing a b with
  | nil => exact h
  | cons o seen ih => exact ih (h.record o)

theorem recorded {a b : Analysis} (h : Within a b) (o : Observation) : Within a (b.record o) := by
  cases o
  case jump pc o d =>
    refine ⟨?_, h.copies⟩
    simp only [Analysis.record, List.forall₂_map_right_iff]
    refine h.jumps.imp fun s t hs => ?_
    split
    · exact hs.recorded o d
    · exact hs
  case copy pc c =>
    refine ⟨h.jumps, ?_⟩
    simp only [Analysis.record, List.forall₂_map_right_iff]
    refine h.copies.imp fun s t hs => ?_
    split
    · exact hs.recorded c
    · exact hs

theorem recordedAll {a b : Analysis} (h : Within a b) (seen : List Observation) :
    Within a (b.recordAll seen) := by
  induction seen generalizing b with
  | nil => exact h
  | cons o seen ih => exact ih (h.recorded o)

end Within
end Analysis
end Splice
