import Splice.Proofs.Exploration

namespace Splice

def Policy.forgetful (policy : Policy) : Policy :=
  { policy with remembers := false }

namespace Exploration

variable {policy : Policy} {p : Program}

namespace Explores

open Branch

-- Everything in sight of a branch is known in the end, if that holds of the forks that were only
-- recalled. `done` are the forks that had been done before.
theorem knows_of_sees {b : Branch} {t t' : Session} {log : List Event} {a : Analysis}
    (h : Explores policy p b t log t') (ha : ∀ o, o.Traced → t'.analysis.Knows o → a.Knows o)
    (done : List Event) (hd : ∀ f, .explored f ∈ done → ∀ o, Sees p f.taken o → a.Knows o)
    (hc : ∀ before f after, log = before ++ .recalled f :: after → ∀ o, Sees p f.taken o →
      a.Knows o ∨ ∃ f', .explored f' ∈ done ++ before ∧ Sees p f'.taken o)
    {o : Observation} (hs : Sees p b o) : a.Knows o := by
  induction h generalizing done o with
  | halted => exact absurd hs not_sees_halted
  | off get => exact absurd hs (not_sees_off get)
  | step get settled step rest ih =>
    rcases sees_step get settled step hs with rfl | hs
    case inl => exact ha o hs.traced (rest.knows hs.traced (by simp [Analysis.knows_record_self]))
    case inr => exact ih ha done hd hc hs
  | capped get forks _ ih =>
    obtain hs | ⟨_, ⟨⟩, _⟩ := sees_fork get forks hs
    exact ih ha done hd hc hs
  | @recalled room s i ins t log t' get forks _ _ _ ih =>
    obtain hs | ⟨r, ⟨⟩, hs⟩ := sees_fork get forks hs
    case inl =>
      refine ih ha (done ++ [.recalled ⟨room + 1, s, .running i⟩]) ?_ ?_ hs
      · intro f hf
        exact hd f (by simpa using hf)
      · intro before f after hlog o ho
        have := hc (_ :: before) f after (congrArg (_ :: ·) hlog) o ho
        simpa using this
    case inr =>
      rcases hc [] _ log rfl o hs with hk | ⟨f', hf', hs⟩
      case inl => exact hk
      case inr => exact hd f' (by simpa using hf') o hs
  | @explored room s i ins t log t₁ log' t' get forks _ taken rest iht ihr =>
    have htaken : ∀ o, Sees p ⟨room, s.set 1 (.constant 1), .running i⟩ o → a.Knows o := by
      intro o hs
      refine iht (fun o ho hk => ha o ho (rest.knows ho hk)) done hd ?_ hs
      intro before f after hlog
      exact hc before f (after ++ .explored ⟨room + 1, s, .running i⟩ :: log') (by simp [hlog])
    obtain hs | ⟨r, ⟨⟩, hs⟩ := sees_fork get forks hs
    case inl =>
      refine ihr ha (done ++ log ++ [.explored ⟨room + 1, s, .running i⟩]) ?_ ?_ hs
      · intro f hf o ho
        simp only [List.mem_append, List.mem_singleton, or_assoc] at hf
        cases hf
        case inl hf => exact hd f hf o ho
        case inr hf =>
          cases hf
          case inl hf => exact htaken o (.of_reaches (taken.reaches hf) ho)
          case inr hf =>
            cases hf
            exact htaken o ho
      · intro before f after hlog
        have := hc (log ++ .explored ⟨room + 1, s, .running i⟩ :: before) f after (by simp [hlog])
        simpa using this
    case inr => exact htaken o hs

theorem remembers_of_recalled {b f : Branch} {t t' : Session} {log : List Event}
    (h : Explores policy p b t log t') (hf : .recalled f ∈ log) : policy.remembers := by
  induction h with
  | halted | off => simp at hf
  | step _ _ _ _ ih | capped _ _ _ ih => exact ih hf
  | recalled _ _ remembers => exact remembers
  | explored _ _ _ _ _ iht ihr =>
    cases List.mem_append.mp hf
    case inl hf => exact iht hf
    case inr hf => exact ihr (by simpa using hf)

end Explores

open Branch

section

variable {a b : Analysis} {log : List Event}

namespace History

theorem knows_of_sees (h : History policy p log a)
    (hc : ∀ before f after, log = before ++ .recalled f :: after → ∀ o, Sees p f.taken o →
      a.Knows o ∨ ∃ f', .explored f' ∈ before ∧ Sees p f'.taken o)
    {o : Observation} (hs : Sees p (root policy) o) : a.Knows o := by
  obtain ⟨t, h, rfl⟩ := h
  exact h.knows_of_sees (fun _ _ => id) [] (by simp) hc hs

theorem knows_of_forgetful (h : History policy.forgetful p log a) {o : Observation}
    (hs : Sees p (root policy) o) : a.Knows o := by
  refine h.knows_of_sees (fun before f after hlog => ?_) hs
  have ⟨t, h, _⟩ := h
  have hf : .recalled f ∈ log := by simp [hlog]
  exact absurd (h.remembers_of_recalled hf) Bool.false_ne_true

end History

variable (ha : History policy p log a) {log' : List Event}
  (hb : History policy.forgetful p log' b)

include ha hb

theorem within_forgetful : a.Within b := by
  have ⟨seen, hseen, hs⟩ := ha.exists_recordAll
  have ⟨seen', hseen', hs'⟩ := hb.exists_recordAll
  have hk : b.recordAll seen = b :=
    Analysis.recordAll_eq_self fun o ho => hb.knows_of_forgetful (hs o ho)
  have hw : (Analysis.blank p).Within b := by
    have := (Analysis.Within.refl (.blank p)).recordedAll seen'
    rw [hseen']
    exact ⟨this.jumps, this.copies⟩
  have := hw.recordAll seen
  rw [hk] at this
  rw [hseen]
  exact ⟨this.jumps, this.copies⟩

theorem eq_forgetful_iff :
    (a.jumps = b.jumps ∧ a.copies = b.copies) ↔ ∀ o, Sees p (root policy) o → a.Knows o := by
  constructor
  case mp =>
    rintro ⟨hj, hc⟩ o hs
    have hab : a = b.withStats a.stats := by
      have ⟨jumps, copies, stats⟩ := a
      simp_all [Analysis.withStats]
    rw [hab, Analysis.knows_withStats]
    exact hb.knows_of_forgetful hs
  case mpr =>
    intro hk
    have ⟨seen, hseen, hs⟩ := ha.exists_recordAll
    have ⟨seen', hseen', hs'⟩ := hb.exists_recordAll
    have heq : (Analysis.blank p).recordAll seen = (Analysis.blank p).recordAll seen' := by
      refine Analysis.recordAll_eq (fun o ho => (hs o ho).traced) (fun o ho => (hs' o ho).traced)
        (fun o ho => ?_) (fun o ho => ?_)
      · have := hb.knows_of_forgetful (hs o ho)
        rwa [hseen', Analysis.knows_withStats] at this
      · have := hk o (hs' o ho)
        rwa [hseen, Analysis.knows_withStats] at this
    rw [hseen, hseen', heq]
    exact ⟨rfl, rfl⟩

theorem eq_forgetful_iff_recalled :
    (a.jumps = b.jumps ∧ a.copies = b.copies) ↔
      ∀ f, .recalled f ∈ log → ∀ o, Sees p f.taken o → a.Knows o := by
  rw [eq_forgetful_iff ha hb]
  constructor
  case mp =>
    intro hk f hf o hs
    have ⟨t, h, _⟩ := ha
    exact hk o (.of_reaches (h.reaches hf) hs)
  case mpr =>
    intro hk o hs
    refine ha.knows_of_sees (fun before f after hlog o ho => .inl (hk f ?_ o ho)) hs
    simp [hlog]

omit ha in
theorem forgetful_not_capped (hs : b.stats.forksSkipped = 0) {c : Branch}
    (hr : Reaches p (root policy) c) : ¬Capped p c := by
  obtain ⟨t, h, rfl⟩ := hb
  exact h.not_capped hs hr

end

-- Remembering forks adds nothing to an analysis. What it hides is what lies behind the forks that
-- were only recalled, which is nothing if each of them had been done before with the same stack,
-- words and origins included, and as much room.
theorem remembering_hides_only_what_is_recalled {a b : Analysis} (ha : run policy p = .ok a)
    (hb : run policy.forgetful p = .ok b) :
    a.Within b ∧ (∃ log, History policy p log a) ∧ ∀ log, History policy p log a →
      ((a.jumps = b.jumps ∧ a.copies = b.copies) ↔
        ∀ f, .recalled f ∈ log → ∀ o, Sees p f.taken o → a.Knows o) ∧
      ((∀ before f after, log = before ++ .recalled f :: after →
          ∃ f', .explored f' ∈ before ∧ f'.stack = f.stack ∧ f'.position = f.position ∧
            (f.room ≤ f'.room ∨ b.stats.forksSkipped = 0)) →
        a.jumps = b.jumps ∧ a.copies = b.copies) := by
  have ⟨log, ha⟩ := exists_history_of_run ha
  have ⟨log', hb⟩ := exists_history_of_run hb
  refine ⟨within_forgetful ha hb, ⟨log, ha⟩, fun log ha => ?_⟩
  refine ⟨eq_forgetful_iff_recalled ha hb, fun hc => ?_⟩
  rw [eq_forgetful_iff ha hb]
  intro o hs
  refine ha.knows_of_sees (fun before f after hlog o ho => .inr ?_) hs
  have ⟨f', hf', hstack, hposition, hroom⟩ := hc before f after hlog
  refine ⟨f', hf', ?_⟩
  have htaken : f'.taken = ⟨f'.room - 1, f.taken.stack, f.taken.position⟩ := by
    simp only [taken, hstack, hposition]
  cases hroom
  case inl hroom => exact htaken ▸ ho.more (Nat.sub_le_sub_right hroom 1)
  case inr hskip =>
    have ⟨t, h, _⟩ := ha
    have hf' := h.reaches (e := .explored f') (by simp [hlog, hf'])
    rw [htaken]
    refine ho.of_not_capped fun c hr => forgetful_not_capped hb hskip ?_
    exact hf'.trans (htaken ▸ hr)

def rejoined : Program where
  instructions := [
    ⟨0, .callvalue, none⟩, ⟨1, .push 1, some [4]⟩, ⟨3, .jumpi, none⟩, ⟨4, .jumpdest, none⟩,
    ⟨5, .callvalue, none⟩, ⟨6, .push 1, some [9]⟩, ⟨8, .jumpi, none⟩, ⟨9, .jumpdest, none⟩
  ]

def rejoinedFork (room : Nat) : Branch :=
  ⟨room, ⟨[.pushed 6 9, .unknown]⟩, .running 6⟩

def rejoinedLog : List Event :=
  ([] ++ .explored (rejoinedFork 29) :: []) ++
    .explored ⟨30, ⟨[.pushed 1 4, .unknown]⟩, .running 2⟩ :: .recalled (rejoinedFork 30) :: []

def rejoinedAnalysis (stats : Stats) : Analysis where
  jumps := [
    ⟨3, .jumpi, [⟨1, false, .traced⟩], [4]⟩, ⟨8, .jumpi, [⟨6, false, .traced⟩], [9]⟩
  ]
  copies := []
  stats := stats

theorem history_rejoined :
    History .standard rejoined rejoinedLog (rejoinedAnalysis ⟨16, 2, 1, 2⟩) :=
  ⟨_, .step rfl (by decide) rfl <| .step rfl (by decide) rfl <|
    .explored rfl (by decide) (by decide)
      (.step rfl (by decide) rfl <| .step rfl (by decide) rfl <| .step rfl (by decide) rfl <|
        .step rfl (by decide) rfl <| .explored rfl (by decide) (by decide)
          (.step rfl (by decide) rfl <| .step rfl (by decide) rfl .halted)
          (.step rfl (by decide) rfl <| .step rfl (by decide) rfl .halted))
      (.step rfl (by decide) rfl <| .step rfl (by decide) rfl <| .step rfl (by decide) rfl <|
        .step rfl (by decide) rfl <| .recalled rfl (by decide) rfl (by decide)
          (.step rfl (by decide) rfl <| .step rfl (by decide) rfl .halted)), rfl⟩

theorem remembering_hides_nothing_of_rejoined :
    ∃ a b, run .standard rejoined = .ok a ∧ run Policy.standard.forgetful rejoined = .ok b ∧
      a.stats.forksSkipped = 1 ∧ b.stats.forksSkipped = 0 ∧ a.jumps = b.jumps ∧
      a.copies = b.copies := by
  have hrun : run .standard rejoined = .ok (rejoinedAnalysis ⟨16, 2, 1, 2⟩) := by decide +kernel
  have hrun' : run Policy.standard.forgetful rejoined = .ok (rejoinedAnalysis ⟨18, 3, 0, 2⟩) := by
    decide +kernel
  have ⟨_, _, h⟩ := remembering_hides_only_what_is_recalled hrun hrun'
  refine ⟨_, _, hrun, hrun', rfl, rfl, (h _ history_rejoined).2 ?_⟩
  intro before f after hlog
  obtain ⟨rfl, rfl, -⟩ : before = rejoinedLog.take 2 ∧ rejoinedFork 30 = f ∧ [] = after := by
    match before with
    | [] | [_] => simp [rejoinedLog] at hlog
    | [_, _] => simpa [rejoinedLog, eq_comm, and_assoc] using hlog
    | _ :: _ :: _ :: _ => simp [rejoinedLog] at hlog
  exact ⟨rejoinedFork 29, by simp [rejoinedLog], rfl, rfl, .inr rfl⟩

-- A routine with a fork in it that is called from either side of another fork. The two calls differ
-- only in the address that they return to.
def calledFromBothSides : List UInt8 := [
  0x34, 0x60, 0x09, 0x57, 0x60, 0x17, 0x60, 0x0f, 0x56, 0x5b, 0x60, 0x18, 0x60, 0x0f, 0x56, 0x5b,
  0x34, 0x60, 0x15, 0x57, 0x00, 0x5b, 0x56, 0x5b, 0x5b
]

theorem remembering_hides_a_return :
    ¬∀ (code : List UInt8) (a b : Analysis), analyze (.decode code) = .ok a →
      run Policy.standard.forgetful (.decode code) = .ok b →
      a.jumps = b.jumps ∧ a.copies = b.copies := by
  intro h
  have hdecode : Program.decode calledFromBothSides = ⟨[
      ⟨0, .callvalue, none⟩, ⟨1, .push 1, some [0x09]⟩, ⟨3, .jumpi, none⟩,
      ⟨4, .push 1, some [0x17]⟩, ⟨6, .push 1, some [0x0f]⟩, ⟨8, .jump, none⟩,
      ⟨9, .jumpdest, none⟩, ⟨10, .push 1, some [0x18]⟩, ⟨12, .push 1, some [0x0f]⟩,
      ⟨14, .jump, none⟩, ⟨15, .jumpdest, none⟩, ⟨16, .callvalue, none⟩,
      ⟨17, .push 1, some [0x15]⟩, ⟨19, .jumpi, none⟩, ⟨20, .stop, none⟩, ⟨21, .jumpdest, none⟩,
      ⟨22, .jump, none⟩, ⟨23, .jumpdest, none⟩, ⟨24, .jumpdest, none⟩]⟩ := by cbv
  specialize h calledFromBothSides
  rw [hdecode] at h
  obtain ⟨hjumps, _⟩ := h ⟨[
      ⟨3, .jumpi, [⟨1, false, .traced⟩], [9]⟩, ⟨8, .jump, [⟨6, false, .traced⟩], [15]⟩,
      ⟨14, .jump, [⟨12, false, .traced⟩], [15]⟩, ⟨19, .jumpi, [⟨17, false, .traced⟩], [21]⟩,
      ⟨22, .jump, [⟨10, false, .traced⟩], [24]⟩], [], ⟨25, 2, 1, 2⟩⟩ ⟨[
      ⟨3, .jumpi, [⟨1, false, .traced⟩], [9]⟩, ⟨8, .jump, [⟨6, false, .traced⟩], [15]⟩,
      ⟨14, .jump, [⟨12, false, .traced⟩], [15]⟩, ⟨19, .jumpi, [⟨17, false, .traced⟩], [21]⟩,
      ⟨22, .jump, [⟨4, false, .traced⟩, ⟨10, false, .traced⟩], [23, 24]⟩], [], ⟨30, 3, 0, 2⟩⟩
    (by decide +kernel) (by decide +kernel)
  exact absurd hjumps (by decide)

end Exploration
end Splice
