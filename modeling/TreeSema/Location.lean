/-!
# Locations

A location is a line and a column in a named unit. Locations are ordered by unit, then by line,
then by column. Units compare by their characters, which is also the order of their UTF-8 bytes.
-/
namespace TreeSema

/-- A point in a unit. Line and column 0 stand for "unknown". -/
structure Location where
  unit : String := ""
  line : Int := 0
  col : Int := 0
  deriving DecidableEq, Repr, Inhabited

namespace Location

def toString (l : Location) : String :=
  if l.unit = "" then s!"{l.line}:{l.col}" else s!"{l.unit}:{l.line}:{l.col}"

/-- Does `l` come strictly before `m`? -/
def before (l m : Location) : Bool :=
  if l.unit ≠ m.unit then l.unit < m.unit
  else if l.line ≠ m.line then l.line < m.line
  else l.col < m.col

end Location

end TreeSema
