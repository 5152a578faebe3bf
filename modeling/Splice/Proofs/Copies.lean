import Mathlib.Data.List.Perm.Subperm
import Splice.Proofs.Operation

namespace Splice

def Operation.value? : Operation → Option Value
  | .push v | .replace _ v => some v
  | _ => none

namespace Stack

variable {s : Stack} {o : Operation} {os : List Operation} {v w : Value} {q : Nat}
variable {vs ws rest : List Value}

def selected? (s : Stack) : Operation → Option Value
  | .dup (i + 1) => s.peek? i
  | _ => none

-- What becomes of the slots: none is copied and at most the value that comes along is new, or one
-- is copied, and it and its copy are flagged if they are still there.
theorem Performs.slots {r : Bool × Stack} (h : s.Performs o r) :
    s.selected? o = none ∧ r.2.slots.Subperm (o.value?.toList ++ s.slots) ∨
    ∃ v rest, s.selected? o = some v ∧ s.slots.Perm (v :: rest) ∧
      r.2.slots.Subperm (v.copied :: v.copied :: rest) := by
  cases h with
  | push => exact .inl ⟨rfl, .refl _⟩
  | full | missing => exact .inl ⟨rfl, (List.sublist_cons_self ..).subperm⟩
  | pop top => exact .inl ⟨rfl, top ▸ (List.sublist_cons_self ..).subperm⟩
  | popMany => exact .inl ⟨rfl, (List.drop_sublist ..).subperm⟩
  | nothing | short | alone => exact .inl ⟨rfl, .refl _⟩
  | @swap i v w top below =>
    obtain ⟨htop, rfl⟩ := List.getElem?_eq_some_iff.mp top
    obtain ⟨hi, rfl⟩ := List.getElem?_eq_some_iff.mp below
    exact .inl ⟨rfl, (List.set_set_perm htop hi).subperm⟩
  | @dup i v slot room =>
    obtain ⟨hi, rfl⟩ := List.getElem?_eq_some_iff.mp slot
    exact .inr ⟨_, s.slots.eraseIdx i, slot, (List.getElem_cons_eraseIdx_perm hi).symm,
      (List.subperm_cons _).mpr (List.set_perm_cons_eraseIdx hi _).subperm⟩
  | @crowded i v slot full =>
    obtain ⟨hi, rfl⟩ := List.getElem?_eq_some_iff.mp slot
    exact .inr ⟨_, s.slots.eraseIdx i, slot, (List.getElem_cons_eraseIdx_perm hi).symm,
      (List.set_perm_cons_eraseIdx hi _).subperm.cons_right _⟩
  | @absent i none =>
    refine .inl ⟨?_, .refl _⟩
    cases i with
    | zero => rfl
    | succ i => exact none.resolve_left (Nat.succ_ne_zero i)
  | @replace i v w slot =>
    obtain ⟨hi, rfl⟩ := List.getElem?_eq_some_iff.mp slot
    exact .inl ⟨rfl, (List.set_perm_cons_eraseIdx hi v).subperm.trans
      ((List.subperm_cons v).mpr (List.eraseIdx_sublist ..).subperm)⟩

def brought (os : List Operation) : List Value :=
  os.filterMap Operation.value?

theorem brought_concat (os : List Operation) (o : Operation) :
    brought (os ++ [o]) = brought os ++ o.value?.toList := by
  cases h : o.value? <;> simp [brought, h]

def origins (os : List Operation) : List Nat :=
  (brought os).filterMap Value.origin?

theorem origins_concat (os : List Operation) (o : Operation) :
    origins (os ++ [o]) = origins os ++ o.value?.toList.filterMap Value.origin? := by
  rw [origins, brought_concat, List.filterMap_append, origins]

theorem mem_origins_concat (h : q ∈ origins os) (o : Operation) : q ∈ origins (os ++ [o]) := by
  rw [origins_concat]
  exact List.mem_append_left _ h

-- No value comes flagged, and no two come from one push.
structure Fresh (os : List Operation) : Prop where
  unflagged : ∀ v ∈ brought os, v.duplicated = false
  distinct  : (origins os).Nodup

theorem Fresh.of_concat (h : Fresh (os ++ [o])) : Fresh os where
  unflagged v hv := h.unflagged v (brought_concat os o ▸ List.mem_append_left _ hv)
  distinct       := (List.nodup_append.mp (origins_concat os o ▸ h.distinct)).1

theorem Fresh.value (h : Fresh (os ++ [o])) (hv : v ∈ o.value?.toList) :
    v.duplicated = false ∧ ∀ q, v.origin? = some q → q ∉ origins os ∧ q ∈ origins (os ++ [o]) := by
  refine ⟨h.unflagged v (brought_concat os o ▸ List.mem_append_right _ hv), fun q origin => ?_⟩
  have new : q ∈ o.value?.toList.filterMap Value.origin? := List.mem_filterMap.mpr ⟨v, hv, origin⟩
  have ⟨_, _, apart⟩ := List.nodup_append.mp (origins_concat os o ▸ h.distinct)
  exact ⟨fun old => apart q old q new rfl, origins_concat os o ▸ List.mem_append_right _ new⟩

def Copied (os : List Operation) (q : Nat) : Prop :=
  ∃ front o v, front ++ [o] <+: os ∧ (after front).selected? o = some v ∧ v.origin? = some q

theorem not_copied_nil (q : Nat) : ¬Copied [] q := by
  simp [Copied]

theorem copied_concat_iff :
    Copied (os ++ [o]) q ↔
      Copied os q ∨ ∃ v, (after os).selected? o = some v ∧ v.origin? = some q := by
  constructor
  case mp =>
    rintro ⟨front, o', v, initial, selected, origin⟩
    rcases List.prefix_concat_iff.mp initial with last | initial
    case inl =>
      obtain ⟨rfl, rfl⟩ := List.append_singleton_inj.mp last
      exact .inr ⟨v, selected, origin⟩
    case inr => exact .inl ⟨front, o', v, initial, selected, origin⟩
  case mpr =>
    rintro (⟨front, o', v, initial, copies⟩ | ⟨v, copies⟩)
    case inl => exact ⟨front, o', v, initial.trans (List.prefix_append ..), copies⟩
    case inr => exact ⟨os, o, v, List.prefix_rfl, copies⟩

theorem copied_concat_of_none (skips : (after os).selected? o = none) :
    Copied (os ++ [o]) q ↔ Copied os q := by
  simp [copied_concat_iff, skips]

theorem copied_concat_of_some (selects : (after os).selected? o = some v) :
    Copied (os ++ [o]) q ↔ Copied os q ∨ v.origin? = some q := by
  simp [copied_concat_iff, selects]

-- What the slots `vs` say of the operations so far: only a slot that was copied shares its push
-- with another, and the flags are on the slots of the pushes that were copied.
structure Tracks (os : List Operation) (vs : List Value) : Prop where
  known   : ∀ v ∈ vs, ∀ q, v.origin? = some q → q ∈ origins os
  copied  : ∀ q, Copied os q → q ∈ origins os
  flagged : ∀ v ∈ vs, ∀ q, v.origin? = some q → (v.duplicated = true ↔ Copied os q)
  shared  : vs.Pairwise fun v w => ∀ q, v.origin? = some q → w.origin? = some q → Copied os q

namespace Tracks

theorem start : Tracks [] [] where
  known    := by simp
  copied q := (not_copied_nil q).elim
  flagged  := by simp
  shared   := .nil

theorem subperm (h : Tracks os vs) (sub : ws.Subperm vs) : Tracks os ws where
  known v hv   := h.known v (sub.subset hv)
  copied       := h.copied
  flagged v hv := h.flagged v (sub.subset hv)
  shared       := by
    obtain ⟨us, perm, sublist⟩ := sub
    exact (perm.pairwise_iff fun share q hv hw => share q hw hv).mp (h.shared.sublist sublist)

theorem bring (h : Tracks os vs) (fresh : Fresh (os ++ [o]))
    (skips : (after os).selected? o = none) : Tracks (os ++ [o]) (o.value?.toList ++ vs) where
  known v hv q origin := by
    rcases List.mem_append.mp hv with hv | hv
    case inl => exact ((fresh.value hv).2 q origin).2
    case inr => exact mem_origins_concat (h.known v hv q origin) o
  copied q copied := mem_origins_concat (h.copied q ((copied_concat_of_none skips).mp copied)) o
  flagged v hv q origin := by
    rw [copied_concat_of_none skips]
    rcases List.mem_append.mp hv with hv | hv
    case inl =>
      obtain ⟨unflagged, new⟩ := fresh.value hv
      have new : ¬Copied os q := fun copied => (new q origin).1 (h.copied q copied)
      simp [unflagged, new]
    case inr => exact h.flagged v hv q origin
  shared := by
    refine List.pairwise_append.mpr ⟨?single, ?kept, ?apart⟩
    case single => cases o.value? <;> simp
    case kept =>
      exact h.shared.imp fun share q hv hw => (copied_concat_of_none skips).mpr (share q hv hw)
    case apart =>
      intro v hv w hw q origin other
      exact absurd (h.known w hw q other) ((fresh.value hv).2 q origin).1

theorem copy (h : Tracks os (v :: rest)) (selects : (after os).selected? o = some v) :
    Tracks (os ++ [o]) (v.copied :: v.copied :: rest) where
  known w hw q origin := by
    refine mem_origins_concat ?_ o
    rcases (show w = v.copied ∨ w ∈ rest by simpa using hw) with rfl | hw
    case inl => exact h.known v (.head _) q origin
    case inr => exact h.known w (.tail _ hw) q origin
  copied q copied := by
    refine mem_origins_concat ?_ o
    rcases (copied_concat_of_some selects).mp copied with copied | origin
    case inl => exact h.copied q copied
    case inr => exact h.known v (.head _) q origin
  flagged w hw q origin := by
    rw [copied_concat_of_some selects]
    rcases (show w = v.copied ∨ w ∈ rest by simpa using hw) with rfl | hw
    case inl => exact ⟨fun _ => .inr origin, fun _ => rfl⟩
    case inr =>
      have shared := (List.pairwise_cons.mp h.shared).1 w hw q
      rw [h.flagged w (.tail _ hw) q origin]
      exact ⟨.inl, fun copied => copied.elim id (shared · origin)⟩
  shared := by
    have ⟨_, apart⟩ := List.pairwise_cons.mp h.shared
    have head w (_ : w ∈ v.copied :: rest) q (origin : v.copied.origin? = some q)
        (_ : w.origin? = some q) : Copied (os ++ [o]) q :=
      (copied_concat_of_some selects).mpr (.inr origin)
    refine .cons head (.cons (fun w hw => head w (.tail _ hw)) ?_)
    exact apart.imp fun share q hv hw => (copied_concat_of_some selects).mpr (.inl (share q hv hw))

theorem step (h : Tracks os (after os).slots) (fresh : Fresh (os ++ [o])) :
    Tracks (os ++ [o]) (after (os ++ [o])).slots := by
  rw [after_concat]
  rcases (performs (after os) o).slots with ⟨skips, sub⟩ | ⟨v, rest, selects, perm, sub⟩
  case inl => exact (h.bring fresh skips).subperm sub
  case inr => exact ((h.subperm perm.symm.subperm).copy selects).subperm sub

theorem copied_of_ne (h : Tracks os vs) {i j : Nat} (apart : i ≠ j) (hv : vs[i]? = some v)
    (hw : vs[j]? = some w) (origin : v.origin? = some q) (other : w.origin? = some q) :
    Copied os q := by
  obtain ⟨hi, rfl⟩ := List.getElem?_eq_some_iff.mp hv
  obtain ⟨hj, rfl⟩ := List.getElem?_eq_some_iff.mp hw
  have share := List.pairwise_iff_getElem.mp h.shared
  rcases Nat.lt_or_gt_of_ne apart with above | below
  case inl => exact share i j hi hj above q origin other
  case inr => exact share j i hj hi below q other origin

end Tracks

theorem tracks (fresh : Fresh os) : Tracks os (after os).slots := by
  induction os using List.reverseRecOn with
  | nil => exact .start
  | append_singleton os o ih => exact (ih fresh.of_concat).step fresh

-- Where the values come fresh, the flag on a slot tells whether a slot of its push was ever
-- selected to be copied, and without the flag no other slot is of its push.
theorem flags_track_copies (fresh : Fresh os) {i : Nat} (slot : (after os).peek? i = some v)
    (origin : v.origin? = some q) :
    (v.duplicated = false →
      ¬Copied os q ∧ ∀ j w, (after os).peek? j = some w → w.origin? = some q → j = i) ∧
    (v.duplicated = true → Copied os q) ∧
    ∀ j w, (after os).peek? j = some w → w.origin? = some q → j ≠ i →
      v.duplicated = true ∧ w.duplicated = true := by
  have h := tracks fresh
  have flagged {i v} (slot : (after os).peek? i = some v) (origin : v.origin? = some q) :
      v.duplicated = true ↔ Copied os q :=
    h.flagged v (List.mem_of_getElem? slot) q origin
  refine ⟨fun unflagged => ?single, (flagged slot origin).mp, fun j w other same apart => ?shared⟩
  case single =>
    have uncopied : ¬Copied os q := fun copied => by
      simp [(flagged slot origin).mpr copied] at unflagged
    refine ⟨uncopied, fun j w other same => ?_⟩
    by_contra apart
    exact uncopied (h.copied_of_ne apart other slot same origin)
  case shared =>
    have copied : Copied os q := h.copied_of_ne apart other slot same origin
    exact ⟨(flagged slot origin).mpr copied, (flagged other same).mpr copied⟩

def shuffled : List Operation :=
  [.push (.pushed 0 5), .push (.pushed 2 6), .dup 2, .swap 1]

theorem fresh_shuffled : Fresh shuffled where
  unflagged := by decide
  distinct  := by decide

theorem flags_track_copies_shuffled : ¬Copied shuffled 2 ∧ Copied shuffled 0 := by
  have upper : (after shuffled).peek? 0 = some (.pushed 2 6) := by decide
  have lower : (after shuffled).peek? 1 = some (Value.copied (.pushed 0 5)) := by decide
  exact ⟨((flags_track_copies fresh_shuffled upper rfl).1 rfl).1,
    (flags_track_copies fresh_shuffled lower rfl).2.1 rfl⟩

end Stack
end Splice
