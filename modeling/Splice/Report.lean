import Splice.Json.Writer
import Splice.Resolution

namespace Splice

namespace Resolution

def hexList (pcs : List Nat) : String :=
  ",".intercalate (pcs.map fun pc => "0x" ++ Numeral.hexPadded 4 pc)

-- An origin next to its jump is marked, because the jump was not reached.
def originText (o : Origin) : String :=
  let pc := "0x" ++ Numeral.hexPadded 4 o.pc
  match o.source with
  | .traced => pc
  | .adjacent => pc ++ "~"

def jumpRow (site : JumpSite) : String :=
  Numeral.padLeft 8 ' ' (",".intercalate (site.origins.map originText)) ++ "  =>  "
    ++ Numeral.padRight 5 ' ' site.op.name ++ " 0x" ++ Numeral.hexPadded 4 site.pc
    ++ "  =>  JUMPDEST " ++ hexList site.destinations ++ "\n"

def copyRow (site : CopySite) : String :=
  Numeral.padLeft 8 ' ' (hexList (site.origins.map (·.pc))) ++ "  =>  CODECOPY 0x"
    ++ Numeral.hexPadded 4 site.pc ++ "\n"

def table (r : Resolution) : String :=
  "    PUSH      SITE          DESTINATIONS\n" ++ String.join (r.jumps.map jumpRow)
    ++ String.join (r.copies.map copyRow)

end Resolution

open Json

def Opcode.toJson : Opcode → Json
  | push n => ofMembers [("PUSH", ofNat n)]
  | dup n => ofMembers [("DUP", ofNat n)]
  | swap n => ofMembers [("SWAP", ofNat n)]
  | unknown b => ofMembers [("UNKNOWN", ofNat b.toNat)]
  | op => ofText op.name

def Source.text : Source → String
  | traced => "Traced"
  | adjacent => "Adjacent"

def Origin.toJson (o : Origin) : Json :=
  ofMembers [
    ("pc", ofNat o.pc), ("duplicated", .bool o.duplicated), ("source", ofText o.source.text)
  ]

def Origin.listToJson (origins : List Origin) : Json :=
  ofMembers (origins.map fun o => (Numeral.decimal o.pc, o.toJson))

def JumpSite.toJson (s : JumpSite) : Json :=
  ofMembers [
    ("pc", ofNat s.pc), ("op", s.op.toJson), ("origins", Origin.listToJson s.origins),
    ("destinations", .array (s.destinations.map ofNat))
  ]

def CopySite.toJson (s : CopySite) : Json :=
  ofMembers [
    ("pc", ofNat s.pc), ("origins", Origin.listToJson s.origins), ("computed", .bool s.computed),
    ("dynamic", .bool s.dynamic)
  ]

def Stats.toJson (t : Stats) : Json :=
  ofMembers [
    ("steps", ofNat t.steps), ("forks_attempted", ofNat t.forksAttempted),
    ("forks_skipped", ofNat t.forksSkipped), ("max_depth", ofNat t.maxDepth)
  ]

def Resolution.toJson (r : Resolution) : Json :=
  ofMembers [
    ("jumps", .array (r.jumps.map (·.toJson))), ("codecopies", .array (r.copies.map (·.toJson))),
    ("stats", r.stats.toJson)
  ]

end Splice
