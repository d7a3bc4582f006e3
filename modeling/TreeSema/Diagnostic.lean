import TreeSema.Location

/-!
# Diagnostics

A diagnostic is a text at a location, with a severity. Lists of diagnostics are kept in the order
of reporting and are sorted by location for display; those at one location keep their order.
-/
namespace TreeSema

inductive Severity where
  | error
  | warning
  | other (code : Int)
  deriving DecidableEq, Repr

namespace Severity

/-- The severity with a given number. -/
def ofCode (code : Int) : Severity :=
  if code = 0 then .error else if code = 1 then .warning else .other code

def name : Severity → String
  | error => "error"
  | warning => "warning"
  | other _ => "unknown"

/-- What the text of every diagnostic of this severity starts with. -/
def tag : Severity → String
  | warning => "Semantic warning: "
  | _ => "Semantic error: "

end Severity

/-- One report; `text` includes the tag of its severity. -/
structure Diagnostic where
  loc : Location
  severity : Severity
  text : String
  deriving DecidableEq, Repr

namespace Diagnostic

/-- A diagnostic whose text is tagged by its severity. -/
def report (loc : Location) (severity : Severity) (message : String) : Diagnostic :=
  ⟨loc, severity, severity.tag ++ message⟩

def toString (d : Diagnostic) : String := d.loc.toString ++ ": " ++ d.text

end Diagnostic

/-- Diagnostics in the order they were reported. -/
abbrev Diagnostics := List Diagnostic

namespace Diagnostics

def hasErrors (ds : Diagnostics) : Bool := ds.any (·.severity == .error)

def count (severity : Severity) (ds : Diagnostics) : Nat := ds.countP (·.severity == severity)

/-- Sorts by location; reports at one location keep their order. -/
def sort (ds : Diagnostics) : Diagnostics := ds.mergeSort fun d e => !e.loc.before d.loc

def toString (ds : Diagnostics) : String := "\n".intercalate (ds.map Diagnostic.toString)

end Diagnostics

end TreeSema
