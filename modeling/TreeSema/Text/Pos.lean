/-!
# Places in a text

Lines are counted by newlines and columns in characters, both from 1. The place of a character is
found by walking over everything before it, so `Pos.after` is all there is to know.
-/
namespace TreeSema.Text

/-- A place in a text. Line and column 0 stand for "nowhere". -/
structure Pos where
  line : Nat
  col : Nat
  deriving DecidableEq, Repr

namespace Pos

/-- Where a text begins. -/
def start : Pos := ⟨1, 1⟩

/-- The place of what was built by hand. -/
def nowhere : Pos := ⟨0, 0⟩

/-- The place right after a character. -/
def next (p : Pos) (c : Char) : Pos :=
  if c = '\n' then ⟨p.line + 1, 1⟩ else ⟨p.line, p.col + 1⟩

/-- The place right after a run of characters. -/
def after (p : Pos) (cs : List Char) : Pos := cs.foldl next p

def toString (p : Pos) : String := s!"{p.line}:{p.col}"

@[simp] theorem after_nil (p : Pos) : p.after [] = p := rfl

@[simp] theorem after_cons (p : Pos) (c : Char) (cs : List Char) :
    p.after (c :: cs) = (p.next c).after cs := rfl

theorem after_append (p : Pos) (cs ds : List Char) :
    p.after (cs ++ ds) = (p.after cs).after ds := by
  simp [after]

end Pos

end TreeSema.Text
