import TreeSema.Analysis.Assign
import TreeSema.Analysis.Call
import TreeSema.Analysis.Constructor
import TreeSema.Analysis.Literal

/-!
# Access chains

A chain that starts at a value is a member access. Any other chain is a qualified name, and what it
names says what the chain means: an enum value, a constructor, a literal, a call or a variable of
a module.
-/
namespace TreeSema

/-- Does a chain start at a value and not at a module or a type? -/
def Symbols.startsAtValue (t : Symbols) (n : Node) : Bool :=
  match n.chain? with
  | some ⟨name :: _, _⟩ =>
    match t.lookup name with
    | none => true
    | some ⟨_, _, .var _, _⟩ => true
    | some _ => false
  | _ => true

namespace Analysis

/-- The type of a statement that was accepted. -/
def unitIf (ok : Bool) : Option Ty := if ok then some .unit else none

/-- Reads the entry that a path leads to. -/
def readEntry (loc : Location) (path : List Ident) (e : SymbolEntry) : Analysis (Option Ty) := do
  match e.kind with
  | .var v =>
    unless v.initialized do report loc (.uninitialized path)
    return some v.type
  | kind =>
    report loc (.unexpectedKind .value kind.name path)
    return none

/-- Analyses a member access, given its operands: the field is read or, when an assignment ends the
chain, written. -/
def member (below : ExprRule) (h : Head) : List Node → Analysis (List Node × Option Ty)
  | left :: right :: rest => do
    match right with
    | .absent =>
      report h.loc (.defect .malformedMember)
      return (left :: right :: rest, none)
    | .mk r cs fs b =>
      match r.kind with
      | .ident =>
        let (left, type) ← below left .unknown
        match type with
        | none => return (left :: right :: rest, none)
        | some type => return (left :: right :: rest, ← fieldType type r.name r.loc)
      | .assign =>
        match cs with
        | target :: value :: more =>
          let (left, p) ← memberPlace h.loc left (place below left) target
          let (value, ok) ← store below r p value
          return (left :: .mk r (target :: value :: more) fs b :: rest, unitIf ok)
        | _ => missingOperand r.loc (left :: right :: rest) none
      | .call | .lit =>
        let (left, type) ← below left .unknown
        match type with
        | none => return (left :: right :: rest, none)
        | some type =>
          let t ← symbols
          report r.loc (.noField r.name (t.shown (t.pointee type)))
          return (left :: right :: rest, none)
      | _ =>
        report h.loc (.defect .malformedMember)
        return (left :: right :: rest, none)
  | cs => missingOperand h.loc cs none

/-- Analyses a chain that names an enum value, which becomes a number of the enum's type. -/
def enumNumber (n : Node) (c : Chain) (value : Int) : Analysis Typed := do
  if c.tail.isSome then
    report n.loc (.noConstructor c.path)
    return (n, none)
  let type := Ty.custom ((← symbols).canonical c.path.dropLast)
  return (.leaf { kind := .int, loc := n.loc, integer := value, type }, some type)

/-- Analyses a chain that names a variable. -/
def moduleVariable (below : ExprRule) (n : Node) (c : Chain) (e : SymbolEntry) (v : Variable) :
    Analysis Typed := do
  match c.tail with
  | none => return (n, ← readEntry n.loc c.path e)
  | some (.mk h (target :: value :: more) fs b) =>
    if h.kind = .assign then
      let p : Place := ⟨c.path.getLastD .missing, v.type, v.mutable, false⟩
      let (value, ok) ← store below h (some p) value
      return (n.withTail (.mk h (target :: value :: more) fs b), unitIf ok)
    else
      report n.loc (.unexpectedKind .function "variable" c.path)
      return (n, none)
  | some _ =>
    report n.loc (.unexpectedKind .function "variable" c.path)
    return (n, none)

/-- Analyses a chain by what it names. -/
def named (below : ExprRule) (n : Node) (c : Chain) (e : SymbolEntry) : Analysis Typed := do
  match e.kind with
  | .enumValue _ value => enumNumber n c value
  | .variantArm owner payload ordinal => construct below n c owner payload ordinal
  | .structDef fields => literal below n c fields false
  | .unionDef fields => literal below n c fields true
  | .func s => call below n c s
  | .var v => moduleVariable below n c e v
  | .moduleDef _ | .enumDef _ | .variantDef _ | .aliasDef _ =>
    report n.loc (.unexpectedKind .value e.kind.name c.path)
    return (n, none)
  | .unspecified =>
    report n.loc (.defect (.unexpectedEntry e.kind.name c.path))
    return (n, none)

/-- Analyses a call, a literal or an access chain. -/
def access (below : ExprRule) (n : Node) : Analysis Typed := do
  let t ← symbols
  if n.kind? = some .dot ∧ t.startsAtValue n then
    let (cs, type) ← member below n.head n.children
    return (n.withChildren cs, type)
  match n.chain? with
  | none =>
    report n.loc (.defect .malformedChain)
    return (n, none)
  | some c =>
    match t.resolve c.path with
    | none =>
      report n.loc (.notFound c.path)
      return (n, none)
    | some e => named below n c e

end Analysis

end TreeSema
