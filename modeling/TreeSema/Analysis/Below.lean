import TreeSema.Analysis.State

/-!
# One level further down

The rules for a kind of node are written in terms of what analysis makes of the nodes below it.
`Below` is that knowledge; the rules take it as an argument, and each level of a tree gets it from
the next. Below an expression there are expressions only, so that its rules need no more than an
`ExprRule`.
-/
namespace TreeSema.Analysis

/-- Analysis of expressions: of an expression, and the type that its place calls for, if that is
known. -/
abbrev ExprRule := Node → Ty → Analysis Typed

/-- The outcome of analysing the body of a module, which sees nothing of its surroundings. -/
structure ModuleRun where
  nodes : List Node
  table : Symbols
  findings : List Finding

/-- The positions of the modules among the statements of a body. -/
def modulePositions (nodes : List Node) : List Nat :=
  (nodes.zipIdx.filter fun p => p.1.kind? == some .moduleDef).map (·.2)

/-- An order for the modules of each body, to be followed where they are analysed ahead. -/
structure Schedule where
  order : List Node → List Nat
  perm : ∀ nodes, (order nodes).Perm (modulePositions nodes)

/-- The order in which the modules stand. -/
def Schedule.written : Schedule := ⟨modulePositions, fun _ => .refl _⟩

/-- Analysis of the nodes below. -/
structure Below where
  expr : ExprRule
  /-- A statement, and the outcome of its body if it is a module that was analysed ahead. -/
  stmt : Option ModuleRun → Node → Analysis Node
  /-- The body of a module, ahead of the statements beside the module. -/
  ahead : List Node → ModuleRun
  /-- The order in which the modules of a body are analysed ahead. -/
  schedule : Schedule

/-- What is made of operands that are not all there. -/
def missingOperand {α : Type} (loc : Location) (cs : List Node) (failed : α) :
    Analysis (List Node × α) := do
  report loc (.defect .missingOperand)
  return (cs, failed)

/-- A node around the operands that analysis gives. -/
def around {α : Type} (h : Head) (fs : List (Component Node)) (b : Node)
    (operands : Analysis (List Node × α)) : Analysis (Node × α) := do
  let (cs, r) ← operands
  return (.mk h cs fs b, r)

/-- Analyses an expression that has to have a type. -/
def exprOf (below : ExprRule) (type : Ty) (n : Node) : Analysis (Node × Bool) := do
  let (n, actual) ← below n type
  match actual with
  | none => return (n, false)
  | some actual => return (n, ← accepts type actual n.loc)

/-- Analyses an expression that has to be an index. -/
def indexExpr (below : ExprRule) (n : Node) : Analysis (Node × Bool) := do
  let (n, actual) ← below n (.basic .usize)
  match actual with
  | none => return (n, false)
  | some actual =>
    let t ← symbols
    if (t.underlying actual).isInteger then return (n, true)
    report n.loc (.indexType (t.shown actual))
    return (n, false)

/-- The type of the elements of an indexed value. -/
def elementType (type : Ty) (loc : Location) : Analysis (Option Ty) := do
  let t ← symbols
  match t.underlying type with
  | .array _ elem => return some elem
  | .ptr target => return some target
  | _ =>
    report loc (.notIndexable (t.shown type))
    return none

end TreeSema.Analysis
