import Splice.Program

namespace Splice

structure Layout where
  lengthPc : Nat
  runtimeLength : Nat
  offsetPc : Nat
  runtimeOffset : Nat
  deriving DecidableEq

namespace Layout

-- A constructor ends by copying the runtime code out of its own code and returning it:
--
--   PUSH length   DUP1   PUSH offset   PUSH 0   CODECOPY   PUSH 0   RETURN
--
-- The pushes may have any width. This is the length and the offset of an epilogue that the list
-- starts with.
def epilogue? : List Instruction → Option (Instruction × Instruction)
  | a :: b :: c :: d :: e :: f :: g :: _ =>
    if a.op.isPush ∧ b.op = .dup 1 ∧ c.op.isPush ∧ d.op.isPush ∧ e.op = .codecopy ∧ f.op.isPush
      ∧ g.op = .ret then some (a, c) else none
  | _ => none

def firstEpilogue? : List Instruction → Option (Instruction × Instruction)
  | [] => none
  | ins :: rest => (epilogue? (ins :: rest)).or (firstEpilogue? rest)

-- Everything from the offset on has to be the deployed code. The length that the epilogue declares
-- may differ from it.
def locate (init deployed : List UInt8) : Except Error Layout :=
  match firstEpilogue? (Program.decode init).instructions with
  | none => .error .missingEpilogue
  | some (length, offset) =>
    match offset.offset?.filter (· ≤ init.length) with
    | none => .error (.runtimeMismatch init.length deployed.length 0)
    | some runtimeOffset =>
      let payload := init.drop runtimeOffset
      if payload = deployed then
        .ok {
          lengthPc := length.pc
          runtimeLength := length.offset?.getD (BigEndian.bound 8 - 1)
          offsetPc := offset.pc
          runtimeOffset
        }
      else
        .error (.runtimeMismatch runtimeOffset deployed.length payload.length)

theorem eq_append_of_locate {init deployed : List UInt8} {layout : Layout}
    (h : locate init deployed = .ok layout) :
    init = init.take layout.runtimeOffset ++ deployed := by
  simp only [locate] at h
  split at h
  · simp at h
  · split at h
    · simp at h
    · split at h
      · rename_i e
        simp only [Except.ok.injEq] at h
        subst h
        simp [← e]
      · simp at h

end Layout
end Splice
