import TreeSema.Analysis.Decl
import TreeSema.Analysis.Expr

/-!
# Statements and bodies

The rules for statements. A body is a list of statements in one scope; the types that its
declarations name are looked up at its end. A module is analysed by itself, and its table becomes
an entry of the table around it.
-/
namespace TreeSema.Analysis

/-- Analyses the body of the module at a position and keeps the outcome with the module. -/
def runAhead (below : Below) (slots : List (Option ModuleRun × Node)) (i : Nat) :
    List (Option ModuleRun × Node) :=
  slots.modify i fun slot => (some (below.ahead slot.2.children), slot.2)

/-- The statements of a body, modules with the outcomes of their bodies if these are analysed
ahead, one after the other in the order of the schedule. A single module is not worth it. -/
def lookAhead (cfg : Config) (below : Below) (nodes : List Node) :
    List (Option ModuleRun × Node) :=
  let slots := nodes.map fun n => (none, n)
  if cfg.looksAhead && 2 ≤ (modulePositions nodes).length then
    (below.schedule.order nodes).foldl (runAhead below) slots
  else slots

/-- Analyses statements in order. -/
def statements (below : Below) : List (Option ModuleRun × Node) → Analysis (List Node)
  | [] => return []
  | (run, n) :: rest => do
    let n ← below.stmt run n
    return n :: (← statements below rest)

/-- Analyses the statements of a body in the current scope. -/
def body (cfg : Config) (below : Below) (nodes : List Node) : Analysis (List Node) := do
  let mark := (← get).declared.length
  let nodes ← statements below (lookAhead cfg below nodes)
  settleDeclared mark
  return nodes

/-- Analyses the body of a module by itself. -/
def ModuleRun.ofBody (cfg : Config) (below : Below) (nodes : List Node) : ModuleRun :=
  let (nodes, s) := (body cfg below nodes).run {}
  ⟨nodes, s.table, s.findings⟩

/-- Analyses a module, unless that was done ahead, and puts it into the table. A module whose name
is taken is not put there, and the findings in it are dropped. -/
def moduleDecl (cfg : Config) (below : Below) (h : Head) (run : Option ModuleRun)
    (cs : List Node) : Analysis (List Node) := do
  if ← redefined h.name h.loc then
    match run with
    | some run => return run.nodes
    | none => return cs
  let run :=
    match run with
    | some run => run
    | none => ModuleRun.ofBody cfg below cs
  modify fun s => { s with findings := s.findings ++ run.findings }
  insert (.definition h.name (.moduleDef (some (.table run.table))) h.loc)
  return run.nodes

/-- Analyses a body in a scope of its own, in the function and loop of the current one. -/
def blockBody (cfg : Config) (below : Below) (safety : Safety) (nodes : List Node) :
    Analysis (List Node) := do
  inScope { (← symbols).context with safety } (body cfg below nodes)

/-- Analyses a branch of a conditional. It has no scope of its own. -/
def branch (cfg : Config) (below : Below) (n : Node) : Analysis Node := do
  if n.kind? = some .block then return n.withChildren (← body cfg below n.children)
  else below.stmt none n

def branches (cfg : Config) (below : Below) : List Node → Analysis (List Node)
  | [] => return []
  | n :: rest => return (← branch cfg below n) :: (← branches cfg below rest)

def conditional (cfg : Config) (below : Below) (h : Head) : List Node → Analysis (List Node)
  | condition :: rest => do
    let (condition, _) ← exprOf below.expr (.basic .bool) condition
    return condition :: (← branches cfg below rest)
  | [] => return (← missingOperand h.loc [] ()).1

/-- Analyses the last operand of a loop, its body. The statements of a block are those of the
loop. -/
def loopBody (cfg : Config) (below : Below) : List Node → Analysis (List Node)
  | [] => return []
  | [n] => do
    inScope { (← symbols).context with safety := .inherited, inLoop := true } do
      if n.kind? = some .block then return [n.withChildren (← body cfg below n.children)]
      body cfg below [n]
  | n :: rest => return n :: (← loopBody cfg below rest)

def loop (cfg : Config) (below : Below) (h : Head) : List Node → Analysis (List Node)
  | [] => return (← missingOperand h.loc [] ()).1
  | first :: rest => do
    if h.kind = .whileLoop then
      let (condition, _) ← exprOf below.expr (.basic .bool) first
      return condition :: (← loopBody cfg below rest)
    else loopBody cfg below (first :: rest)

/-- A jump out of a loop or to its next round. -/
def jump (h : Head) : Analysis Unit := do
  unless (← symbols).context.inLoop do report h.loc (.outsideLoop h.kind)

/-- A return, which is checked against the result type of the innermost function. -/
def returnStmt (below : ExprRule) (h : Head) (cs : List Node) : Analysis (List Node) := do
  match (← get).returns, (← symbols).context.inFunction with
  | expected :: _, true =>
    match cs with
    | [] =>
      let _ ← accepts expected .unit h.loc
      return []
    | value :: rest =>
      let (value, _) ← exprOf below expected value
      return value :: rest
  | _, _ =>
    report h.loc .outsideFunction
    return cs

/-- Analyses what is declared to be defined elsewhere. -/
def externItems : List Node → Analysis Unit
  | [] => return
  | n :: rest => do
    match n with
    | .absent => report {} .externItem
    | .mk h cs _ b =>
      match h.kind with
      | .funcDef => let _ ← function h .foreignFn b pure
      | .varDef | .staticDef => foreignVariable h cs
      | _ => report h.loc .externItem
    externItems rest

/-- Analyses a statement, given what is made of the nodes below it. -/
def stmtStep (cfg : Config) (below : Below) (run : Option ModuleRun) : Node → Analysis Node
  | .absent => do
    report {} (.defect .missingOperand)
    return .absent
  | .mk h cs fs b => do
    let n := Node.mk h cs fs b
    match h.kind with
    | .moduleDef => return .mk h (← moduleDecl cfg below h run cs) fs b
    | .structDef | .unionDef =>
      record h fs
      return n
    | .enumDef =>
      enum h
      return n
    | .variantDef =>
      variant h
      return n
    | .funcDef => return .mk h cs fs (← function h .plain b (body cfg below))
    | .externBlock =>
      externItems cs
      return n
    | .aliasDef =>
      aliasDecl h
      return n
    | .varDef => return .mk h (← variableDecl below.expr h .automatic cs) fs b
    | .staticDef => return .mk h (← variableDecl below.expr h .static cs) fs b
    | .constDef => return .mk h (← variableDecl below.expr h .constant cs) fs b
    | .block => return .mk h (← blockBody cfg below .inherited cs) fs b
    | .unsafeBlock => return .mk h (← blockBody cfg below .unsafely cs) fs b
    | .ifThen => return .mk h (← conditional cfg below h cs) fs b
    | .whileLoop | .loop => return .mk h (← loop cfg below h cs) fs b
    | .breakLoop | .continueLoop =>
      jump h
      return n
    | .returnValue => return .mk h (← returnStmt below.expr h cs) fs b
    | .assign => return .mk h (← assign below.expr h cs).1 fs b
    | .program =>
      report h.loc (.defect .nestedProgram)
      return n
    | _ => return (← below.expr n .unknown).1

end TreeSema.Analysis
