import Splice.Exploration

namespace Splice

-- The sites of a program when all of them are settled: a push, and no copy of its word, stands for
-- the operand of each.
structure Resolution where
  jumps : List JumpSite
  copies : List CopySite
  stats : Stats
  deriving DecidableEq

namespace Resolution

-- A jump that was never reached is taken to belong to the push right before it.
def rescue (p : Program) (site : JumpSite) : Except Error JumpSite :=
  match ((p.indexOf? site.pc).bind p.before?).filter (·.op.isPush) with
  | none => .ok site
  | some push =>
    match push.offset?.filter p.isJumpdest with
    | none => .error (.invalidJump site.pc (.ofBytes push.immediate))
    | some destination => .ok (site.record ⟨push.pc, false, .adjacent⟩ destination)

def rescueAll (p : Program) : List JumpSite → Except Error (List JumpSite)
  | [] => .ok []
  | site :: rest => do
    let site ← if site.isResolved then .ok site else rescue p site
    return site :: (← rescueAll p rest)

-- A word that was copied may be used elsewhere as well, where it must not be changed.
def checkOrigins (pc : Nat) (kind : SiteKind) (origins : List Origin) : Except Error Unit :=
  match origins.find? (·.duplicated) with
  | none => .ok ()
  | some origin => .error (.duplicatedOrigin pc kind origin.pc)

def checkJump (site : JumpSite) : Except Error Unit :=
  if site.isResolved then checkOrigins site.pc .jump site.origins
  else .error (.unresolvedJump site.pc)

def checkCopy (site : CopySite) : Except Error Unit :=
  if site.computed then .error (.unresolvedCopy site.pc .computed)
  else if site.dynamic then .error (.unresolvedCopy site.pc .dynamic)
  else if site.isResolved then checkOrigins site.pc .codecopy site.origins
  else .error (.unresolvedCopy site.pc .unreached)

def ofAnalysis (p : Program) (a : Analysis) : Except Error Resolution := do
  let jumps ← rescueAll p a.jumps
  jumps.forM checkJump
  a.copies.forM checkCopy
  return { jumps, copies := a.copies, stats := a.stats }

def jumpOrigins (r : Resolution) : List Nat :=
  (r.jumps.flatMap (·.origins)).foldl (fun pcs o => insertAscending o.pc pcs) []

def copyOrigins (r : Resolution) : List Nat :=
  (r.copies.flatMap (·.origins)).foldl (fun pcs o => insertAscending o.pc pcs) []

def rescued (r : Resolution) : Nat :=
  (r.jumps.filter fun site => site.origins.any (·.source = .adjacent)).length

end Resolution

def resolve (p : Program) : Except Error Resolution :=
  analyze p >>= Resolution.ofAnalysis p

end Splice
