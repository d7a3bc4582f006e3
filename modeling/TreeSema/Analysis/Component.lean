import TreeSema.Analysis.Below

/-!
# Named components

The components of a literal name fields of the definition that is built. Fields may be left out,
and a repeated one takes the place of the earlier one.
-/
namespace TreeSema.Analysis

/-- Adds a component, in the place of an earlier one of its name. -/
def putComponent (f : Component Node) : List (Component Node) → List (Component Node)
  | [] => [f]
  | g :: rest => if g.name = f.name then f :: rest else g :: putComponent f rest

/-- Analyses components against the fields of the definition at `owner`, after those in `done`.
Beside the given components it returns the ones that are built, unless one is rejected; those after
that one are left alone. -/
def components (below : ExprRule) (fields : Fields) (owner : List Ident)
    (done : List (Component Node)) :
    List (Component Node) → Analysis (List (Component Node) × Option (List (Component Node)))
  | [] => return ([], some done)
  | f :: rest => do
    match fields.get? f.name with
    | none =>
      report f.loc (.noField f.name ⟨.custom owner, none⟩)
      return (f :: rest, none)
    | some type =>
      let type := (← symbols).qualifyAt owner type
      let (value, ok) ← exprOf below type f.value
      let f := { f with value }
      if ok then
        let (rest, built) ← components below fields owner (putComponent f done) rest
        return (f :: rest, built)
      else return (f :: rest, none)

end TreeSema.Analysis
