import Splice.Program

namespace Splice

structure Patch where
  group : PushGroup
  pc : Nat
  width : Nat
  before : Nat
  after : Nat
  deriving DecidableEq

-- Adds `delta` to immediates of a code. The pushes of a group have one width, which the first of
-- them sets, and a push is changed only once even if several groups share it.
structure Patcher where
  delta : Nat
  code : List UInt8
  widths : PushGroup → Option Nat
  patched : List Nat
  patches : List Patch

namespace Patcher

abbrev Outcome (α : Type) := Except Error α × Patcher

def start (delta : Nat) (code : List UInt8) : Patcher where
  delta := delta
  code := code
  widths _ := none
  patched := []
  patches := []

def setWidth (t : Patcher) (group : PushGroup) (width : Nat) : Patcher :=
  { t with widths := fun g => if g = group then some width else t.widths g }

-- The width of the push at `pc`, if it can be patched as one of its group. The group takes the
-- width of the first of its pushes, and keeps it even when a later one is refused.
def check (p : Program) (group : PushGroup) (pc : Nat) (t : Patcher) : Outcome Nat :=
  match (p.atPc? pc).filter (·.op.isPush) with
  | none => (.error (.missingPush pc), t)
  | some ins =>
    let width := ins.op.width
    if ins.isTruncated ∨ t.code.length < pc + 1 + width then
      (.error (.truncatedPush pc), t)
    else if width < 1 ∨ 2 < width then
      (.error (.unsupportedWidth group pc width), t)
    else
      match t.widths group with
      | none => (.ok width, t.setWidth group width)
      | some expected =>
        if expected = width then (.ok width, t)
        else (.error (.inconsistentWidth group pc expected width), t)

def checkAll (p : Program) (group : PushGroup) :
    List Nat → Patcher → Outcome (List (Nat × Nat))
  | [], t => (.ok [], t)
  | pc :: pcs, t =>
    match check p group pc t with
    | (.error e, t) => (.error e, t)
    | (.ok width, t) =>
      match checkAll p group pcs t with
      | (.error e, t) => (.error e, t)
      | (.ok targets, t) => (.ok ((pc, width) :: targets), t)

def overwrite (code : List UInt8) (offset : Nat) (bytes : List UInt8) : List UInt8 :=
  code.take offset ++ bytes ++ code.drop (offset + bytes.length)

-- Answers whether the push was patched now, or had been before. A push counts as patched from the
-- moment it is tried, so one that overflows is not tried again.
def apply (group : PushGroup) (pc width : Nat) (t : Patcher) : Outcome Bool :=
  if pc ∈ t.patched then
    (.ok false, t)
  else
    let t := { t with patched := pc :: t.patched }
    let before := BigEndian.value ((t.code.drop (pc + 1)).take width)
    let after := before + t.delta
    if after < BigEndian.bound width then
      (.ok true, {
        t with
        code := overwrite t.code (pc + 1) (BigEndian.bytes width after)
        patches := t.patches ++ [{ group, pc, width, before, after }]
      })
    else
      (.error (.patchOverflow pc width before t.delta), t)

def applyAll (group : PushGroup) : List (Nat × Nat) → Patcher → Outcome Nat
  | [], t => (.ok 0, t)
  | (pc, width) :: targets, t =>
    match apply group pc width t with
    | (.error e, t) => (.error e, t)
    | (.ok patched, t) =>
      match applyAll group targets t with
      | (.error e, t) => (.error e, t)
      | (.ok count, t) => (.ok (patched.toNat + count), t)

-- Patches the pushes at the given pcs, where `p` is the decoded code or a front part of it, and
-- answers how many of them were changed. All of them are checked before the first is changed.
def patch (p : Program) (group : PushGroup) (pcs : List Nat) (t : Patcher) : Outcome Nat :=
  match checkAll p group pcs t with
  | (.error e, t) => (.error e, t)
  | (.ok targets, t) => applyAll group targets t

def Outcome.settle : Outcome α → Except Error Patcher
  | (.ok _, t) => .ok t
  | (.error e, _) => .error e

theorem length_overwrite {code bytes : List UInt8} {offset : Nat}
    (h : offset + bytes.length ≤ code.length) :
    (overwrite code offset bytes).length = code.length := by
  simp only [overwrite, List.length_append, List.length_take, List.length_drop]
  omega

end Patcher
end Splice
