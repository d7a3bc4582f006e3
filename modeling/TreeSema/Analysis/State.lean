import TreeSema.Analysis.Coercion

/-!
# State of an analysis

An analysis walks a program once. It carries the symbol table, the findings so far, the result
types of the functions around the current node and the types that declarations have named but that
are looked up only at the end of their body, since they may be defined further on in it.
-/
namespace TreeSema

structure Config where
  /-- How deep a tree may be nested; 0 or less stands for the usual limit. -/
  maxDepth : Int := 0
  /-- With two or more jobs, the modules of a body are analysed before its other statements. -/
  jobs : Int := 0
  /-- The unit that is named where there is no node to point at. -/
  unit : String := ""
  deriving DecidableEq, Repr

/-- The greatest depth that is not refused. -/
def Config.depthLimit (cfg : Config) : Nat := if cfg.maxDepth ≤ 0 then 1000 else cfg.maxDepth.toNat

/-- Are the modules of a body analysed ahead? -/
def Config.looksAhead (cfg : Config) : Bool := 2 ≤ cfg.jobs

namespace Analysis

structure State where
  table : Symbols := .empty
  findings : List Finding := []
  /-- Has a node been refused for its depth? That is reported once. -/
  depthReported : Bool := false
  /-- The result types of the enclosing functions, innermost first. -/
  returns : List Ty := []
  /-- The types to be looked up at the end of their body. -/
  declared : List (Ty × Location) := []

end Analysis

/-- A step of an analysis. -/
abbrev Analysis := StateM Analysis.State

namespace Analysis

/-- A node after its analysis, with its type unless something in it was rejected. -/
abbrev Typed := Node × Option Ty

def symbols : Analysis Symbols := return (← get).table

def modifyTable (f : Symbols → Symbols) : Analysis Unit :=
  modify fun s => { s with table := f s.table }

def insert (e : SymbolEntry) : Analysis Unit := modifyTable (·.insert e)

def report (loc : Location) (cause : Cause) : Analysis Unit :=
  modify fun s => { s with findings := s.findings ++ [⟨loc, cause⟩] }

/-- Are unsafe operations allowed here? -/
def unsafeAllowed : Analysis Bool := return (← symbols).context.safety == .unsafely

/-- Runs a step in a scope of its own. -/
def inScope {α : Type} (context : Context) (step : Analysis α) : Analysis α := do
  modifyTable (·.enter context)
  let a ← step
  modifyTable (·.exit)
  return a

/-- Runs a step inside a function with a result type. -/
def returning {α : Type} (result : Ty) (step : Analysis α) : Analysis α := do
  modify fun s => { s with returns := result :: s.returns }
  let a ← step
  modify fun s => { s with returns := s.returns.tail }
  return a

/-- Reports that the depth limit is exceeded, unless that was reported before. -/
def refuse (cfg : Config) (loc : Location) : Analysis Unit := do
  unless (← get).depthReported do
    modify fun s => { s with depthReported := true }
    report loc (.tooDeep cfg.depthLimit)

/-- Can a value of type `actual` be used where `expected` is required? If not, that is reported. -/
def accepts (expected actual : Ty) (loc : Location) : Analysis Bool := do
  let t ← symbols
  if t.compatible expected actual then return true
  report loc (.mismatch (t.shown expected) (t.shown actual))
  return false

/-- Reports a name that is bound already, in whatever open scope. -/
def redefined (name : Ident) (loc : Location) : Analysis Bool := do
  if ((← symbols).lookup name).isNone then return false
  report loc (.redefined name)
  return true

/-! ## Declared types -/

mutual

/-- Reports the names in a type that do not lead to a definition of a type. The name of a template
leads nowhere and is not looked up. -/
def checkType (loc : Location) : Ty → Analysis Bool
  | .custom path => do
    match (← symbols).resolve path with
    | none =>
      report loc (.typeNotFound path)
      return false
    | some e =>
      match e.kind with
      | .structDef _ | .unionDef _ | .enumDef _ | .variantDef _ | .aliasDef _ => return true
      | kind =>
        report loc (.unexpectedKind .type kind.name path)
        return false
  | .ref target _ => checkType loc target
  | .ptr target => checkType loc target
  | .array _ elem => checkType loc elem
  | .tuple elems => checkTypes loc elems
  | .template _ args => checkTypes loc args
  | _ => return true

def checkTypes (loc : Location) : List Ty → Analysis Bool
  | [] => return true
  | t :: ts => do
    let ok ← checkType loc t
    let rest ← checkTypes loc ts
    return ok && rest

end

/-- Leaves a type to be looked up at the end of the current body. -/
def declare (type : Ty) (loc : Location) : Analysis Unit :=
  modify fun s => { s with declared := s.declared ++ [(type, loc)] }

def checkAll : List (Ty × Location) → Analysis Unit
  | [] => return
  | (type, loc) :: rest => do
    let _ ← checkType loc type
    checkAll rest

/-- Looks up the types declared since there were `mark` of them. -/
def settleDeclared (mark : Nat) : Analysis Unit := do
  checkAll ((← get).declared.drop mark)
  modify fun s => { s with declared := s.declared.take mark }

end Analysis

end TreeSema
