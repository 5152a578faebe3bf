import Splice.Opcode

namespace Splice

-- How an origin came to be attributed to a site: its word was followed to the site, or it stands
-- right before a jump that was never reached.
inductive Source
  | traced
  | adjacent
  deriving DecidableEq

structure Origin where
  pc : Nat
  duplicated : Bool
  source : Source
  deriving DecidableEq

def insertAscending (n : Nat) : List Nat → List Nat
  | [] => [n]
  | m :: ms => if n < m then n :: m :: ms else if n = m then m :: ms else m :: insertAscending n ms

namespace Origin

-- Puts an origin into a list that ascends by pc. Of two origins with one pc the first stays, and it
-- is duplicated if either is.
def insert (o : Origin) : List Origin → List Origin
  | [] => [o]
  | p :: ps =>
    if o.pc < p.pc then o :: p :: ps
    else if o.pc = p.pc then { p with duplicated := p.duplicated || o.duplicated } :: ps
    else p :: insert o ps

end Origin

-- A jump of a program with everything that was seen of its target. The target of a jump that was
-- not taken leaves an origin and no destination.
structure JumpSite where
  pc : Nat
  op : Opcode
  origins : List Origin
  destinations : List Nat
  deriving DecidableEq

inductive CopySource
  | pushed (origin : Origin)
  | computed
  | dynamic
  deriving DecidableEq

structure CopySite where
  pc : Nat
  origins : List Origin
  computed : Bool
  dynamic : Bool
  deriving DecidableEq

namespace JumpSite

def fresh (pc : Nat) (op : Opcode) : JumpSite where
  pc := pc
  op := op
  origins := []
  destinations := []

def record (s : JumpSite) (origin : Origin) : (destination : Option Nat) → JumpSite
  | none => { s with origins := origin.insert s.origins }
  | some d =>
    { s with origins := origin.insert s.origins, destinations := insertAscending d s.destinations }

def isResolved (s : JumpSite) : Bool :=
  !s.origins.isEmpty

@[simp]
theorem pc_record (s : JumpSite) (o : Origin) (d : Option Nat) : (s.record o d).pc = s.pc := by
  cases d <;> rfl

@[simp]
theorem op_record (s : JumpSite) (o : Origin) (d : Option Nat) : (s.record o d).op = s.op := by
  cases d <;> rfl

@[simp]
theorem origins_record (s : JumpSite) (o : Origin) (d : Option Nat) :
    (s.record o d).origins = o.insert s.origins := by
  cases d <;> rfl

end JumpSite

namespace CopySite

def fresh (pc : Nat) : CopySite where
  pc := pc
  origins := []
  computed := false
  dynamic := false

def record (s : CopySite) : CopySource → CopySite
  | .pushed origin => { s with origins := origin.insert s.origins }
  | .computed => { s with computed := true }
  | .dynamic => { s with dynamic := true }

def isResolved (s : CopySite) : Bool :=
  !s.origins.isEmpty && !s.computed && !s.dynamic

@[simp]
theorem pc_record (s : CopySite) (source : CopySource) : (s.record source).pc = s.pc := by
  cases source <;> rfl

end CopySite

theorem mem_insertAscending_iff {n m : Nat} {ms : List Nat} :
    n ∈ insertAscending m ms ↔ n = m ∨ n ∈ ms := by
  induction ms with
  | nil => simp [insertAscending]
  | cons k ks ih =>
    simp only [insertAscending]
    split
    · simp
    · split
      · simp_all
      · simp [ih, or_left_comm]

theorem pairwise_insertAscending {n : Nat} {ms : List Nat} (h : ms.Pairwise (· < ·)) :
    (insertAscending n ms).Pairwise (· < ·) := by
  induction ms with
  | nil => simp [insertAscending]
  | cons m ms ih =>
    have ⟨hm, hms⟩ := List.pairwise_cons.mp h
    simp only [insertAscending]
    split
    case isTrue hn =>
      refine List.pairwise_cons.mpr ⟨fun k hk => ?_, h⟩
      rcases List.mem_cons.mp hk with rfl | hk
      · exact hn
      · exact Nat.lt_trans hn (hm k hk)
    split
    · exact h
    · refine List.pairwise_cons.mpr ⟨fun k hk => ?_, ih hms⟩
      rcases mem_insertAscending_iff.mp hk with rfl | hk
      · omega
      · exact hm k hk

theorem Origin.pcs_insert (o : Origin) (os : List Origin) :
    (o.insert os).map (·.pc) = insertAscending o.pc (os.map (·.pc)) := by
  induction os with
  | nil => rfl
  | cons p ps ih =>
    simp only [insert, insertAscending, List.map_cons]
    split
    · rfl
    · split <;> simp_all

end Splice
