import TreeSema.Proofs.Course.Visits

/-!
# The moments of a run

With the tasks that its rules leave to the level below, a run is a sequence of moments. At each of
them an expression or a statement is come to, with a number of levels left and in some state, and what
is found inside it comes next.

* `stmtParts`: the tasks that the rules for statements leave.
* `Task.moments`, `bodyMoments`: the moments of a run.
* `Reached`: a state in which the analysis of a program comes to something.
-/
namespace TreeSema.Analysis

/-! ## Statements -/

section Statements

variable (cfg : Config) (below : Below)

def statementsParts : List (Option ModuleRun × Node) → Parts
  | [] => .none
  | (run, n) :: rest =>
    (Parts.stmt run n).andThen (below.stmt run n) fun _ => statementsParts rest

def bodyParts (nodes : List Node) : Parts := statementsParts below (lookAhead cfg below nodes)

/-- A variable with a declared type is there before its initializer. -/
def variableParts (h : Head) (storage : Storage) (cs : List Node) : Parts :=
  .following (redefined h.name h.loc) fun taken =>
    if taken then .none
    else if h.type.isUnknown then firstPart .unknown cs
    else .following (checkType h.loc h.type) fun _ =>
      .following (insert (.binding h.name
        ⟨h.type, h.mutable && storage != .constant, storage, storage == .static⟩ h.loc)) fun _ =>
          firstPart h.type cs

def functionParts (h : Head) (b : Node) : Parts := fun s =>
  if (s.table.lookup h.name).isSome || b.isAbsent then []
  else bodyParts cfg below b.children (functionStart h s)

def blockParts (safety : Safety) (cs : List Node) : Parts := fun s =>
  bodyParts cfg below cs { s with table := s.table.enter { s.table.context with safety } }

def branchParts (n : Node) : Parts :=
  if n.kind? = some .block then bodyParts cfg below n.children else .stmt none n

def branchesParts : List Node → Parts
  | [] => .none
  | n :: rest => (branchParts cfg below n).andThen (branch cfg below n) fun _ => branchesParts rest

def conditionalParts : List Node → Parts
  | [] => .none
  | condition :: rest => (Parts.expr condition (.basic .bool)).andThen
      (exprOf below.expr (.basic .bool) condition) fun _ => branchesParts cfg below rest

def loopBodyParts : List Node → Parts
  | [] => .none
  | [n] => fun s =>
    bodyParts cfg below (loopNodes n) { s with table := s.table.enter (loopContext s) }
  | _ :: rest => loopBodyParts rest

def loopParts (h : Head) : List Node → Parts
  | [] => .none
  | first :: rest =>
    if h.kind = .whileLoop then
      (Parts.expr first (.basic .bool)).andThen (exprOf below.expr (.basic .bool) first) fun _ =>
        loopBodyParts cfg below rest
    else loopBodyParts cfg below (first :: rest)

def returnParts (cs : List Node) : Parts := fun s =>
  match s.returns, s.table.context.inFunction with
  | expected :: _, true => firstPart expected cs s
  | _, _ => []

/-- The tasks that the rule for a statement leaves. The body of a module is a run of its own. -/
def stmtParts : Node → Parts
  | .absent => .none
  | .mk h cs fs b =>
    match h.kind with
    | .funcDef => functionParts cfg below h b
    | .varDef => variableParts h .automatic cs
    | .staticDef => variableParts h .static cs
    | .constDef => variableParts h .constant cs
    | .block => blockParts cfg below .inherited cs
    | .unsafeBlock => blockParts cfg below .unsafely cs
    | .ifThen => conditionalParts cfg below cs
    | .whileLoop | .loop => loopParts cfg below h cs
    | .returnValue => returnParts cs
    | .assign => assignParts below.expr h cs
    | .moduleDef | .structDef | .unionDef | .enumDef | .variantDef | .externBlock | .aliasDef
    | .breakLoop | .continueLoop | .program => .none
    | _ => .expr (.mk h cs fs b) .unknown

end Statements

/-! ## Moments -/

/-- A point of a run: something is come to with a number of levels left. -/
structure Moment where
  levels : Nat
  task : Task

/-- The tasks that a task leaves. -/
def Task.parts (cfg : Config) (below : Below) : Task → List Task
  | .expr n expected s => exprParts below.expr expected n s
  | .stmt _ n s => stmtParts cfg below n s

variable (cfg : Config) (schedule : Schedule)

/-- The moments of a task: the one in which it is come to, and those of all that it leaves. -/
def Task.moments : Nat → Task → List Moment
  | 0, t => [⟨0, t⟩]
  | k + 1, t => ⟨k + 1, t⟩ :: (t.parts cfg (belowAt cfg schedule k)).flatMap (moments k)

/-- The moments of the analysis of some statements in one scope. -/
def bodyMoments (k : Nat) (nodes : List Node) (s : State) : List Moment :=
  (bodyParts cfg (belowAt cfg schedule k) nodes s).flatMap (Task.moments cfg schedule k)

/-- A state in which the analysis of a program comes to an expression or a statement. -/
def Reached (tree : Node) (s : State) : Prop :=
  ∃ l ns, Visits cfg schedule tree l ns (.body l ns) {} ∧
    ∃ m ∈ bodyMoments cfg schedule l ns {}, m.task.state = s

end TreeSema.Analysis
