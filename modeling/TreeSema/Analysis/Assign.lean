import TreeSema.Analysis.Place

/-!
# Assignments

An assignment to a plain name may also be the one initialization of an immutable variable, or write
through a mutable reference; every other target is a place that has to be writable.
-/
namespace TreeSema

/-- The type of what may be assigned to a variable, or why nothing may. An immutable variable that
holds a mutable reference passes the value on to what it refers to. -/
def Symbols.assignable (t : Symbols) (op : String) (name : Ident) (v : Variable) :
    Except Cause Ty :=
  if v.mutable then .ok v.type
  else
    match t.underlying v.type with
    | .ref target true => .ok target
    | .ref _ false => .error (.immutableRef name)
    | _ =>
      if !v.initialized && op == "=" && v.storage == .automatic then .ok v.type
      else .error (.constMutation name)

/-- The entry of a variable, with a value from now on. -/
def Entry.withValue {M : Type} (e : Entry M) : Entry M :=
  match e.kind with
  | .var v => { e with kind := .var { v with initialized := true } }
  | _ => e

namespace Analysis

/-- Analyses the value that is assigned where `expected` is stored. Operators other than `=` need a
numeric target. -/
def storedValue (below : ExprRule) (h : Head) (expected : Ty) (value : Node) :
    Analysis (Node × Bool) := do
  let t ← symbols
  if h.op ≠ "=" ∧ !(t.underlying expected).isNumeric then
    report h.loc (.operand h.op (t.shown expected))
    return (value, false)
  exprOf below expected value

/-- Stores a value in a place, if the target is one. -/
def store (below : ExprRule) (h : Head) (target : Option Place) (value : Node) :
    Analysis (Node × Bool) := do
  match target with
  | none => return (value, false)
  | some p =>
    if p.writable then storedValue below h p.type value
    else
      report h.loc (if p.viaRef then .immutableRef p.root else .constMutation p.root)
      return (value, false)

/-- Stores a value in a variable, which has a value from then on. -/
def storeName (below : ExprRule) (h : Head) (name : Ident) (expected : Ty) (value : Node) :
    Analysis (Node × Bool) := do
  let (value, ok) ← storedValue below h expected value
  if ok then modifyTable (·.modify name .withValue)
  return (value, ok)

/-- Assigns to a variable. -/
def assignName (below : ExprRule) (h target : Head) (value : Node) : Analysis (Node × Bool) := do
  let t ← symbols
  let name := target.name
  let some e := t.lookup name
    | report target.loc (.notFound [name])
      return (value, false)
  match e.kind with
  | .var v =>
    match t.assignable h.op name v with
    | .error cause =>
      report h.loc cause
      return (value, false)
    | .ok expected =>
      if h.op ≠ "=" ∧ !v.initialized then report target.loc (.uninitialized [name])
      storeName below h name expected value
  | kind =>
    report target.loc (.unexpectedKind .assignable kind.name [name])
    return (value, false)

/-- Analyses an assignment, given its operands. -/
def assign (below : ExprRule) (h : Head) : List Node → Analysis (List Node × Bool)
  | target :: value :: rest => do
    if target.kind? = some .ident then
      let (value, ok) ← assignName below h target.head value
      return (target :: value :: rest, ok)
    else
      let (target, p) ← place below target
      let (value, ok) ← store below h p value
      return (target :: value :: rest, ok)
  | cs => missingOperand h.loc cs false

end Analysis

end TreeSema
