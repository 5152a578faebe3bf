import Splice.Proofs.Assembly
import Splice.Proofs.Text

namespace Splice

def Error.below (lines : Nat) : Error → Error
  | assembly line fault text => assembly (line + lines) fault text
  | e => e

namespace Assembly

open Program Instruction Text

theorem ne_numberSign_of_isBlank {c : Char} (h : isBlank c) : c ≠ '#' := by
  rintro rfl
  exact absurd h (by decide)

theorem tokens_concat {c : Char} (hc : isBlank c) (line : List Char) :
    tokens (line ++ [c]) = tokens line := by
  rw [tokens, tokens, List.takeWhile_append]
  split
  case isTrue h =>
    have hline : line.takeWhile (· ≠ '#') = line := (List.takeWhile_prefix _).eq_of_length h
    rw [List.takeWhile_cons_of_pos (by simpa using ne_numberSign_of_isBlank hc),
      List.takeWhile_nil, words_concat hc, hline]
  case isFalse => rfl

theorem tokens_dropReturn (line : List Char) : tokens (dropReturn line) = tokens line := by
  rcases dropReturn_cases line with h | h
  · rw [h]
  · rw [h, tokens_concat rfl, ← h]

theorem trim_dropReturn (line : List Char) : trim (dropReturn line) = trim line := by
  rcases dropReturn_cases line with h | h
  · rw [h]
  · rw [h, trim_concat rfl, ← h]

-- A text can be read between its line feeds: the carriage returns in front of them are not seen,
-- and there is nothing to read behind a last one.
theorem parse_eq (text : List Char) : parse text = readLines 1 0 (split (· == '\n') text) := by
  suffices h : ∀ number pc pieces, readLines number pc
      (pieces.dropLast.map dropReturn ++ (pieces.getLast?.filter (!·.isEmpty)).toList) =
        readLines number pc pieces from h ..
  intro number pc pieces
  induction pieces generalizing number pc with
  | nil => rfl
  | cons piece pieces ih =>
    cases pieces with
    | nil => cases piece <;> rfl
    | cons piece' pieces =>
      rw [List.dropLast_cons_cons, List.getLast?_cons_cons, List.map_cons, List.cons_append,
        readLines_cons, readLines_cons, tokens_dropReturn, trim_dropReturn]
      simp only [ih]

theorem readLines_append (number pc : Nat) (front rest : List (List Char)) :
    readLines number pc (front ++ rest) = readLines number pc front >>= fun l =>
      (l ++ ·) <$> readLines (number + front.length) (pc + span l) rest := by
  induction front generalizing number pc with
  | nil => exact (id_map (readLines number pc rest)).symm
  | cons line front ih => simp [readLines_cons, ih, Nat.add_assoc, Nat.add_comm 1]

theorem readTokens_shift (d pc : Nat) (ts : List (List Char)) :
    readTokens (d + pc) ts = (·.map (·.shift d)) <$> readTokens pc ts := by
  fun_induction readTokens pc ts with
  | case1 =>
    rw [readTokens]
    rfl
  | case2 pc token rest ihPlain ihPush =>
    rw [readTokens]
    rw [map_bind]
    refine bind_congr fun op => ?_
    simp only [Nat.add_assoc] at ihPlain ihPush ⊢
    split
    case isTrue => simp [ihPlain, shift]
    case isFalse =>
      have ihPush := ihPush op
      cases rest with
      | nil => rfl
      | cons literal rest => simp [ihPush, shift]

theorem span_map_shift (d : Nat) (l : List Instruction) : span (l.map (·.shift d)) = span l := by
  induction l with
  | nil => rfl
  | cons ins l ih => exact congrArg (ins.size + ·) ih

theorem readLines_shift (lines d number pc : Nat) (ls : List (List Char)) :
    readLines (number + lines) (d + pc) ls =
      (·.map (·.shift d)) <$> (readLines number pc ls).mapError (·.below lines) := by
  induction ls generalizing number pc with
  | nil => rfl
  | cons line ls ih =>
    rw [readLines_cons, readLines_cons, readTokens_shift]
    cases readTokens pc (tokens line) with
    | error => rfl
    | ok l =>
      have hbelow := ih (number + 1) (pc + span l)
      rw [Nat.add_right_comm, ← Nat.add_assoc, ← span_map_shift d l] at hbelow
      change (l.map (·.shift d) ++ ·) <$> readLines (number + lines + 1) _ ls =
        _ <$> ((l ++ ·) <$> readLines (number + 1) (pc + span l) ls).mapError _
      rw [hbelow, span_map_shift]
      cases readLines (number + 1) (pc + span l) ls with
      | error => rfl
      | ok l' => exact congrArg Except.ok List.map_append.symm

theorem parse_append_cons (a b : List Char) :
    parse (a ++ '\n' :: b) = parse a >>= fun l => (l ++ ·.map (·.shift (span l))) <$>
      (parse b).mapError (·.below (a.count '\n' + 1)) := by
  rw [parse_eq, parse_eq, parse_eq, split_append_cons rfl, readLines_append]
  refine bind_congr fun l => ?_
  rw [length_split, Nat.add_comm 0, readLines_shift, ← comp_map]
  rfl

theorem exists_of_parse_error {text : List Char} {e : Error} (h : parse text = .error e) :
    ∃ line fault raw, e = .assembly line fault raw := by
  suffices hlines : ∀ number pc ls, readLines number pc ls = .error e →
      ∃ line fault raw, e = .assembly line fault raw from hlines _ _ _ h
  intro number pc ls h
  induction ls generalizing number pc with
  | nil => cases h
  | cons line ls ih =>
    rw [readLines_cons] at h
    cases hline : readTokens pc (tokens line) with
    | error =>
      rw [hline] at h
      cases h
      exact ⟨_, _, _, rfl⟩
    | ok l =>
      rw [hline] at h
      change (l ++ ·) <$> readLines (number + 1) (pc + span l) ls = _ at h
      cases hrest : readLines (number + 1) (pc + span l) ls with
      | error =>
        rw [hrest] at h
        cases h
        exact ih _ _ hrest
      | ok =>
        rw [hrest] at h
        cases h

theorem flatMap_bytes_map_shift (d : Nat) (l : List Instruction) :
    (l.map (·.shift d)).flatMap (·.bytes) = l.flatMap (·.bytes) := by
  rw [List.flatMap_map]
  rfl

-- Assembly text is read line by line. If the upper one of two texts cannot be read, nothing is
-- changed by the other one. If only the lower one cannot, its fault stands as many lines further
-- down as the upper one has. If both can be read, the code of the lower one follows that of the
-- upper one.
theorem reads_line_by_line (a b : List Char) :
    (∀ e, parse a = .error e → (∃ line fault raw, e = .assembly line fault raw) ∧
      parse (a ++ '\n' :: b) = .error e) ∧
    ∀ xs, parse a = .ok xs →
      (∀ e, parse b = .error e → ∃ line fault raw, e = .assembly line fault raw ∧
        parse (a ++ '\n' :: b) = .error (.assembly (line + 1 + a.count '\n') fault raw)) ∧
      ∀ ys, parse b = .ok ys → ∃ code code', assemble a = .ok code ∧ assemble b = .ok code' ∧
        parse (a ++ '\n' :: b) = .ok (xs ++ ys.map (·.shift code.length)) ∧
        assemble (a ++ '\n' :: b) = .ok (code ++ code') := by
  refine ⟨fun e ha => ⟨exists_of_parse_error ha, ?_⟩,
    fun xs ha => ⟨fun e hb => ?_, fun ys hb => ?_⟩⟩
  · rw [parse_append_cons, ha]
    rfl
  · obtain ⟨line, fault, raw, rfl⟩ := exists_of_parse_error hb
    refine ⟨line, fault, raw, rfl, ?_⟩
    rw [parse_append_cons, ha, hb, Nat.add_assoc, Nat.add_comm 1]
    rfl
  · have hc : parse (a ++ '\n' :: b) = .ok (xs ++ ys.map (·.shift (span xs))) := by
      rw [parse_append_cons, ha, hb]
      rfl
    refine ⟨_, _, assemble_of_parse ha, assemble_of_parse hb, ?_, ?_⟩
    · rw [hc, length_flatMap_bytes]
    · rw [assemble_of_parse hc, List.flatMap_append, flatMap_bytes_map_shift]

def broken : List Char := "UNKNOWN(0x60)\r".toList

def literal : List Char := "0x01".toList

def upper : List Char := "UNKNOWN(0x61) 0x102 # UNKNOWN(0x60)\r\n\nADD\r".toList

def lower : List Char := "STOP#STOP\nUNKNOWN(0x60) 0xff\n".toList

def faulty : List Char := "STOP\n  UNKNOWN(0x60) 255 # 0xff \r".toList

theorem reads_line_by_line_upper :
    parse (broken ++ '\n' :: literal) =
        .error (.assembly 1 (.missingImmediate (.push 1)) "UNKNOWN(0x60)") ∧
      parse (upper ++ '\n' :: faulty) =
        .error (.assembly 5 (.bareImmediate "255") "UNKNOWN(0x60) 255 # 0xff") ∧
      assemble (upper ++ '\n' :: lower) = .ok [0x61, 0x01, 0x02, 0x01, 0x00, 0x60, 0xff] := by
  have hbroken : parse broken =
      .error (.assembly 1 (.missingImmediate (.push 1)) "UNKNOWN(0x60)") := by decide +kernel
  have hupper : parse upper =
      .ok [⟨0, .push 2, some [0x01, 0x02]⟩, ⟨3, .add, none⟩] := by decide +kernel
  have hfaulty : parse faulty =
      .error (.assembly 2 (.bareImmediate "255") "UNKNOWN(0x60) 255 # 0xff") := by decide +kernel
  have hlower : parse lower =
      .ok [⟨0, .stop, none⟩, ⟨1, .push 1, some [0xff]⟩] := by decide +kernel
  have hcount : upper.count '\n' = 2 := by decide +kernel
  refine ⟨((reads_line_by_line broken literal).1 _ hbroken).2, ?_, ?_⟩
  · obtain ⟨_, _, _, he, hc⟩ := ((reads_line_by_line upper faulty).2 _ hupper).1 _ hfaulty
    cases he
    rw [hc, hcount]
  · obtain ⟨_, _, ha, hb, -, hc⟩ := ((reads_line_by_line upper lower).2 _ hupper).2 _ hlower
    cases (assemble_of_parse hupper).symm.trans ha
    cases (assemble_of_parse hlower).symm.trans hb
    exact hc

end Assembly
end Splice
