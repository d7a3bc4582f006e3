import TreeSema.Text.Pos

/-!
# Data

A datum is a symbol, a string, an integer, an ellipsis, a list, an array or a map. Lists and maps
keep the order they were written in, and keys may repeat. Any datum can carry metadata, a list of
keyed data beside its content; only that of lists has a written form.

Every datum remembers the place of its first character, or `Pos.nowhere` when it was built by
hand. Two further forms never come from a text: an item left out (`absent`) and a datum of a sort
known only by its number.
-/
namespace TreeSema

open Text (Pos)

/-- The sorts of atoms. -/
inductive AtomSort where
  | symbol
  | string
  | integer
  | ellipsis
  deriving DecidableEq, Repr

/-- A datum; `notes` is its metadata. -/
inductive Datum where
  | absent
  | atom (pos : Pos) (notes : List (String × Datum)) (sort : AtomSort) (text : String)
  | list (pos : Pos) (notes : List (String × Datum)) (items : List Datum)
  | array (pos : Pos) (notes : List (String × Datum)) (items : List Datum)
  | map (pos : Pos) (notes : List (String × Datum)) (entries : List (String × Datum))
  | unknown (pos : Pos) (notes : List (String × Datum)) (code : Int)
  deriving Inhabited

namespace Datum

/-! ## Data built by hand -/

def symbol (text : String) : Datum := .atom .nowhere [] .symbol text

def str (text : String) : Datum := .atom .nowhere [] .string text

def integer (text : String) : Datum := .atom .nowhere [] .integer text

def ofItems (items : List Datum) : Datum := .list .nowhere [] items

def ofEntries (entries : List (String × Datum)) : Datum := .map .nowhere [] entries

/-! ## Parts -/

def pos : Datum → Pos
  | .absent => .nowhere
  | .atom p .. | .list p .. | .array p .. | .map p .. | .unknown p .. => p

def notes : Datum → List (String × Datum)
  | .absent => []
  | .atom _ ns .. | .list _ ns .. | .array _ ns .. | .map _ ns .. | .unknown _ ns .. => ns

/-- What a list, an array or a map holds, keys left out. -/
def contents : Datum → List Datum
  | .list _ _ items => items
  | .array _ _ items => items
  | .map _ _ entries => entries.map (·.2)
  | _ => []

def isAtom : Datum → Bool
  | .atom .. => true
  | _ => false

/-- Is this the symbol `text`? -/
def isSymbol (text : String) : Datum → Bool
  | .atom _ _ .symbol t => t == text
  | _ => false

def isEllipsis : Datum → Bool
  | .atom _ _ .ellipsis _ => true
  | _ => false

/-- The leading symbol of a list, or `""`. -/
def head : Datum → String
  | .list _ _ (.atom _ _ .symbol t :: _) => t
  | _ => ""

/-- The metadata stored under a key: the first of several. -/
def note? (key : String) (d : Datum) : Option Datum := d.notes.lookup key

/-- The map value stored under a key: the first of several. -/
def get? (key : String) : Datum → Option Datum
  | .map _ _ entries => entries.lookup key
  | _ => none

end Datum

end TreeSema
