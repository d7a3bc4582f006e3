import TreeSema.Analysis.Chain
import TreeSema.Analysis.Component

/-!
# Literals of structs and unions

An accepted literal becomes one that carries the full name of its type and each component once.
-/
namespace TreeSema.Analysis

/-- Analyses a chain that names a struct or a union. -/
def literal (below : ExprRule) (n : Node) (c : Chain) (fields : Fields) (union : Bool) :
    Analysis Typed := do
  match c.tail with
  | none =>
    report n.loc (.unexpectedKind .value (if union then "union" else "struct") c.path)
    return (n, none)
  | some .absent =>
    report n.loc (.noConstructor c.path)
    return (n, none)
  | some (.mk h cs fs b) =>
    if h.kind ≠ .lit then
      report n.loc (.noConstructor c.path)
      return (n, none)
    if union && !(← unsafeAllowed) then
      report n.loc (.unionLiteral c.path)
      return (n, none)
    let (fs, built) ← components below fields c.path [] fs
    match built with
    | none => return (n.withTail (.mk h cs fs b), none)
    | some built =>
      let type := Ty.custom ((← symbols).canonical c.path)
      return (.ofFields { kind := .literal, loc := n.loc, type } built, some type)

end TreeSema.Analysis
