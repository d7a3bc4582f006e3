import TreeSema.Analysis.State

/-!
# Records

Structs and unions, as the types that name them lead to them, and the types of their fields.
-/
namespace TreeSema

/-- A struct or union and the path it was reached by. -/
structure Record where
  path : List Ident
  fields : Fields
  union : Bool

/-- The struct or union that a type names, seen through aliases. -/
def Symbols.record? (t : Symbols) (ty : Ty) : Option Record :=
  match t.underlying ty with
  | .custom path =>
    match t.resolve path with
    | some ⟨_, _, .structDef fields, _⟩ => some ⟨path, fields, false⟩
    | some ⟨_, _, .unionDef fields, _⟩ => some ⟨path, fields, true⟩
    | _ => none
  | _ => none

namespace Analysis

/-- The type of a field of a value, looking through references and pointers to it. The fields of a
union are there only where unsafe operations are allowed. -/
def fieldType (type : Ty) (name : Ident) (loc : Location) : Analysis (Option Ty) := do
  let t ← symbols
  let base := t.pointee type
  let some r := t.record? base
    | report loc (.noField name (t.shown base))
      return none
  let some field := r.fields.get? name
    | report loc (.noField name ⟨.custom r.path, none⟩)
      return none
  if r.union && !(← unsafeAllowed) then
    report loc (.unionField name r.path)
    return none
  return some (t.qualifyAt r.path field)

end Analysis

end TreeSema
