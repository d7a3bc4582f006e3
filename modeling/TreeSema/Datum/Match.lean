import TreeSema.Datum.Printer
import TreeSema.Text.Quoted

/-!
# Patterns

A datum can serve as a pattern for others. The symbol `_` stands for any datum, and an ellipsis at
the end of a list or an array for all remaining items. A map pattern names the keys of the map, in
any order. Metadata of a pattern has to be present; other metadata does not matter.

`Datum.mismatch?` finds the first difference; there is none exactly when the pattern fits.
-/
namespace TreeSema

/-- One step down from a datum to a part of it. -/
inductive Step where
  | item (index : Nat)
  | note (key : String)
  | entry (key : String)
  deriving DecidableEq, Repr

def Step.toString : Step → String
  | .item i => s!"[{i}]"
  | .note key => s!"^{key}"
  | .entry key => s!".{key}"

/-- What is wrong at one place. -/
inductive Difference where
  | differs (expected found : Datum)
  | noNote (key : String)
  | noKey (key : String) (found : Datum)
  | ended (index : Nat) (expected : Datum)
  | extra (found : Datum)
  | unmatchable (expected : Datum)

/-- A difference and the way to it from the whole datum. -/
structure Mismatch where
  path : List Step
  difference : Difference

namespace Mismatch

def here (d : Difference) : Mismatch := ⟨[], d⟩

/-- The same difference, seen from one step further out. -/
def under (s : Step) (m : Mismatch) : Mismatch := { m with path := s :: m.path }

def message (m : Mismatch) : String :=
  let place := "at root" ++ String.join (m.path.map Step.toString) ++ ": "
  place ++ match m.difference with
    | .differs p a => s!"expected {p.render}, got {a.render}"
    | .noNote key => s!"missing metadata {Text.quote key}"
    | .noKey key a => s!"missing key {Text.quote key} in {a.render}"
    | .ended i p => s!"expected item {i} ({p.render}), list ended"
    | .extra a => s!"unexpected extra item {a.render}"
    | .unmatchable p => s!"cannot match {p.render}"

end Mismatch

namespace Datum

mutual

/-- The first difference between a pattern and a datum. -/
def mismatch? : Datum → Datum → Option Mismatch
  | .absent, .absent => none
  | .absent, a => some (.here (.differs .absent a))
  | p, .absent => some (.here (.differs p .absent))
  | p@(.atom _ _ sort text), a =>
    if p.isSymbol "_" then none
    else
      match a with
      | .atom _ _ sort' text' =>
        if sort = sort' ∧ (sort = .ellipsis ∨ text = text') then none
        else some (.here (.differs p a))
      | _ => some (.here (.differs p a))
  | .list pos notes items, a =>
    match a with
    | .list _ notes' items' => mismatchNotes notes notes' <|> mismatchItems 0 items items'
    | _ => some (.here (.differs (.list pos notes items) a))
  | .array pos notes items, a =>
    match a with
    | .array _ notes' items' => mismatchNotes notes notes' <|> mismatchItems 0 items items'
    | _ => some (.here (.differs (.array pos notes items) a))
  | .map pos notes entries, a =>
    match a with
    | .map _ _ entries' =>
      if entries.length ≠ entries'.length then
        some (.here (.differs (.map pos notes entries) a))
      else mismatchEntries entries a entries'
    | _ => some (.here (.differs (.map pos notes entries) a))
  | .unknown pos notes code, a =>
    match a with
    | .unknown _ _ code' =>
      if code = code' then some (.here (.unmatchable (.unknown pos notes code)))
      else some (.here (.differs (.unknown pos notes code) a))
    | _ => some (.here (.differs (.unknown pos notes code) a))

/-- The first difference between items, of which the first has the given index. -/
def mismatchItems : Nat → List Datum → List Datum → Option Mismatch
  | _, [], [] => none
  | _, [], a :: _ => some (.here (.extra a))
  | i, p :: ps, as =>
    if p.isEllipsis && ps.isEmpty then none
    else
      match as with
      | [] => some (.here (.ended i p))
      | a :: as => (mismatch? p a).map (.under (.item i)) <|> mismatchItems (i + 1) ps as

/-- The first metadata of a pattern that is missing or differs. -/
def mismatchNotes : List (String × Datum) → List (String × Datum) → Option Mismatch
  | [], _ => none
  | (key, p) :: rest, notes =>
    match notes.lookup key with
    | none => some (.here (.noNote key))
    | some a => (mismatch? p a).map (.under (.note key)) <|> mismatchNotes rest notes

/-- The first entry of a map pattern that is missing in the map `whole` or differs. -/
def mismatchEntries : List (String × Datum) → Datum → List (String × Datum) → Option Mismatch
  | [], _, _ => none
  | (key, p) :: rest, whole, entries =>
    match entries.lookup key with
    | none => some (.here (.noKey key whole))
    | some a => (mismatch? p a).map (.under (.entry key)) <|> mismatchEntries rest whole entries

end

end Datum

end TreeSema
