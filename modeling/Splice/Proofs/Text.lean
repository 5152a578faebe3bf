import Mathlib.Data.List.TakeWhile
import Splice.Text.Blank

namespace Splice.Text

section

variable {sep : Char → Bool} {cs : List Char}

theorem split_append_cons {c : Char} (hc : sep c) (front rest : List Char) :
    split sep (front ++ c :: rest) = split sep front ++ split sep rest := by
  induction front with
  | nil => simp [split, hc]
  | cons d front ih =>
    rw [List.cons_append, split, split, ih]
    split
    case isTrue => rfl
    case isFalse =>
      cases h : split sep front with
      | nil => exact absurd h (split_ne_nil sep front)
      | cons => rfl

theorem split_of_forall_not (h : ∀ c ∈ cs, sep c = false) : split sep cs = [cs] := by
  induction cs with
  | nil => rfl
  | cons c cs ih =>
    have ⟨hc, hcs⟩ := List.forall_mem_cons.mp h
    simp [split, hc, ih hcs]

theorem length_split (sep : Char → Bool) (cs : List Char) :
    (split sep cs).length = cs.countP sep + 1 := by
  induction cs with
  | nil => rfl
  | cons c cs ih =>
    rw [split, List.countP_cons]
    split
    case isTrue => simp [ih]
    case isFalse =>
      cases h : split sep cs with
      | nil => exact absurd h (split_ne_nil sep cs)
      | cons => simpa [h] using ih

end

section

variable {c : Char} {cs : List Char}

theorem words_append_cons (hc : isBlank c) (front rest : List Char) :
    words (front ++ c :: rest) = words front ++ words rest := by
  rw [words, split_append_cons hc, List.filter_append]
  rfl

theorem words_cons (hc : isBlank c) (rest : List Char) : words (c :: rest) = words rest :=
  words_append_cons hc [] rest

theorem words_append (h : ∀ c ∈ cs, isBlank c) (rest : List Char) :
    words (cs ++ rest) = words rest := by
  induction cs with
  | nil => rfl
  | cons c cs ih =>
    have ⟨hc, hcs⟩ := List.forall_mem_cons.mp h
    rw [List.cons_append, words_cons hc, ih hcs]

theorem words_of_forall_not (hne : cs ≠ []) (h : ∀ c ∈ cs, isBlank c = false) :
    words cs = [cs] := by
  simp [words, split_of_forall_not h, hne]

theorem words_concat (hc : isBlank c) (cs : List Char) : words (cs ++ [c]) = words cs := by
  rw [words_append_cons hc, show words [] = [] from rfl, List.append_nil]

theorem trim_concat (hc : isBlank c) (cs : List Char) : trim (cs ++ [c]) = trim cs := by
  rw [trim, trim, List.dropWhile_append]
  split
  case isTrue h => simp [hc, List.isEmpty_iff.mp h]
  case isFalse => simp [hc]

end

theorem dropReturn_cases (line : List Char) :
    dropReturn line = line ∨ line = dropReturn line ++ ['\r'] := by
  rw [dropReturn]
  split
  case isTrue h =>
    have ⟨front, hfront⟩ := List.getLast?_eq_some_iff.mp h
    exact .inr (by simp [hfront])
  case isFalse => exact .inl rfl

structure Trimmed (cs core : List Char) : Prop where
  around : ∃ front back, cs = front ++ core ++ back ∧ (∀ c ∈ front, isBlank c) ∧
    ∀ c ∈ back, isBlank c
  head   : ∀ c, core.head? = some c → isBlank c = false
  last   : ∀ c, core.getLast? = some c → isBlank c = false

theorem dropWhile_eq_self {p : Char → Bool} {cs : List Char}
    (h : ∀ c, cs.head? = some c → p c = false) : cs.dropWhile p = cs := by
  cases cs with
  | nil => rfl
  | cons c cs => exact List.dropWhile_cons_of_neg (by simp [h c rfl])

theorem Trimmed.trim_eq {cs core : List Char} (h : Trimmed cs core) : trim cs = core := by
  obtain ⟨front, back, rfl, hfront, hback⟩ := h.around
  rw [trim, List.append_assoc, List.dropWhile_append_of_pos hfront]
  cases hcore : core with
  | nil =>
    rw [List.nil_append, List.dropWhile_eq_nil_iff.mpr hback]
    rfl
  | cons c rest =>
    rw [← hcore]
    have hhead : (core ++ back).dropWhile isBlank = core ++ back :=
      dropWhile_eq_self fun d hd => h.head d (by simpa [hcore] using hd)
    have hreverse : ∀ c ∈ back.reverse, isBlank c := by simpa using hback
    have hlast : core.reverse.dropWhile isBlank = core.reverse :=
      dropWhile_eq_self (by simpa only [List.head?_reverse] using h.last)
    rw [hhead, List.reverse_append, List.dropWhile_append_of_pos hreverse, hlast,
      List.reverse_reverse]

theorem trimmed_trim (cs : List Char) : Trimmed cs (trim cs) := by
  let mid := cs.dropWhile isBlank
  have hfront : cs.takeWhile isBlank ++ mid = cs := cs.takeWhile_append_dropWhile
  have hback : trim cs ++ (mid.reverse.takeWhile isBlank).reverse = mid := by
    rw [trim, ← List.reverse_append, List.takeWhile_append_dropWhile, List.reverse_reverse]
  refine ⟨⟨cs.takeWhile isBlank, (mid.reverse.takeWhile isBlank).reverse, ?_,
    fun c => List.mem_takeWhile_imp, fun c hc => ?_⟩, fun c hc => ?_, fun c hc => ?_⟩
  · rw [List.append_assoc, hback, hfront]
  · exact List.mem_takeWhile_imp (List.mem_reverse.mp hc)
  · have hhead := List.head?_dropWhile_not isBlank cs
    rw [show cs.dropWhile isBlank = mid from rfl, ← hback, List.head?_append, hc] at hhead
    simpa using hhead
  · rw [trim, List.getLast?_reverse] at hc
    have hlast := List.head?_dropWhile_not isBlank mid.reverse
    rw [hc] at hlast
    simpa using hlast

theorem trimmed_iff {cs core : List Char} : Trimmed cs core ↔ trim cs = core :=
  ⟨Trimmed.trim_eq, fun h => h ▸ trimmed_trim cs⟩

theorem trim_eq_self {cs : List Char} (hhead : ∀ c, cs.head? = some c → isBlank c = false)
    (hlast : ∀ c, cs.getLast? = some c → isBlank c = false) : trim cs = cs :=
  Trimmed.trim_eq ⟨⟨[], [], by simp, by simp, by simp⟩, hhead, hlast⟩

@[simp]
theorem trim_trim (cs : List Char) : trim (trim cs) = trim cs :=
  trim_eq_self (trimmed_trim cs).head (trimmed_trim cs).last

end Splice.Text
