/-!
# Identifiers

An identifier is a name, which may be any text, the empty one included, or it is missing. The
missing identifier differs from every name, also from the one spelled as it is shown.
-/
namespace TreeSema

inductive Ident where
  | missing
  | name (text : String)
  deriving DecidableEq, Repr, Inhabited

namespace Ident

/-- How an identifier is shown. -/
def text : Ident → String
  | missing => "<invalid>"
  | name s => s

def isValid : Ident → Bool
  | missing => false
  | name _ => true

/-- A path of identifiers, written with doubled colons. -/
def joinPath (path : List Ident) : String := "::".intercalate (path.map text)

end Ident

/-- Cuts a text at each doubled colon. -/
def splitSegments : List Char → List (List Char)
  | [] => [[]]
  | ':' :: ':' :: cs => [] :: splitSegments cs
  | c :: cs =>
    match splitSegments cs with
    | [] => [[c]]
    | s :: ss => (c :: s) :: ss

/-- The segments of a qualified name. -/
def segments (text : String) : List String := (splitSegments text.toList).map String.ofList

end TreeSema
