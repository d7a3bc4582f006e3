import Std.Data.HashMap

/-!
# Interning

An interner hands out a small number for every text it is given: 1 for the first, 2 for the next
new one, and so on. The same text always gets the same number back, and 0 is never handed out.
-/
namespace TreeSema

/-- The numbers given out so far, and the texts in the order of their numbers. -/
structure Interner where
  ids : Std.HashMap String Nat
  names : Array String

namespace Interner

def empty : Interner := ⟨∅, #[]⟩

/-- How many texts have a number. -/
def size (t : Interner) : Nat := t.names.size

/-- The number of a text, if it has one. -/
def lookup? (t : Interner) (text : String) : Option Nat := t.ids[text]?

/-- The number of a text, which gets the next one if it has none. -/
def intern (t : Interner) (text : String) : Nat × Interner :=
  match t.lookup? text with
  | some id => (id, t)
  | none =>
    let id := t.names.size + 1
    (id, ⟨t.ids.insert text id, t.names.push text⟩)

/-- The text behind a number; there is none behind 0 and behind numbers not yet given out, and `""`
stands for it. -/
def name (t : Interner) (id : Nat) : String :=
  match id with
  | 0 => ""
  | n + 1 => t.names.getD n ""

end Interner

end TreeSema
