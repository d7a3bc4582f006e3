import TreeSema.Analysis.Program

/-!
# What is left to the level below

A rule leaves the expressions and statements in a node to the level below, one after the other, each
in the state that it has got to. For each rule these tasks are listed in the order in which they come
up; a task after a rejected one is listed only if the rule gets to it.

* `Task`, `Parts`: tasks, and the tasks of a step in every state.
* `exprParts`: the tasks that the rules for expressions leave.
-/
namespace TreeSema.Analysis

variable {α : Type}

/-! ## Tasks -/

/-- An expression of which a type is expected, or a statement, with the run over its body if it is a
module that was analysed ahead; and the state in which it is come to. -/
inductive Task where
  | expr (n : Node) (expected : Ty) (s : State)
  | stmt (run : Option ModuleRun) (n : Node) (s : State)

namespace Task

def node : Task → Node
  | expr n _ _ => n
  | stmt _ n _ => n

def state : Task → State
  | expr _ _ s => s
  | stmt _ _ s => s

/-- The state after a task. -/
def after (below : Below) : Task → State
  | expr n expected s => (below.expr n expected s).2
  | stmt run n s => (below.stmt run n s).2

end Task

/-- The tasks that a step leaves to the level below, by the state that it starts in. -/
abbrev Parts := State → List Task

namespace Parts

def none : Parts := fun _ => []

def expr (n : Node) (expected : Ty) : Parts := fun s => [.expr n expected s]

def stmt (run : Option ModuleRun) (n : Node) : Parts := fun s => [.stmt run n s]

/-- The parts of a step, and then those of what follows it. -/
def andThen (ps : Parts) (m : Analysis α) (next : α → Parts) : Parts :=
  fun s => ps s ++ next (m s).1 (m s).2

/-- The parts of what follows a step that has none. -/
def following (m : Analysis α) (next : α → Parts) : Parts := none.andThen m next

/-- The parts of what depends on the table. -/
def seeing (next : Symbols → Parts) : Parts := fun s => next s.table s

/-- The parts of what depends on something that may be missing. -/
def given (a : Option α) (next : α → Parts) : Parts := a.elim none next

end Parts

/-! ## Operands -/

section Expressions

variable (below : ExprRule)

/-- The first operand alone. -/
def firstPart (expected : Ty) : List Node → Parts
  | operand :: _ => .expr operand expected
  | [] => .none

def conditionsParts : List Node → Parts
  | [] => .none
  | n :: rest => (Parts.expr n (.basic .bool)).andThen (exprOf below (.basic .bool) n) fun r =>
      if r.2 then conditionsParts rest else .none

def agreeingParts (first second : Node) (expected : Ty) : Parts :=
  (Parts.expr first expected).andThen (below first expected) fun r => .given r.2 (.expr second)

def operandPairParts (left right : Node) (expected : Ty) : Parts :=
  if left.isOpenLiteral && !right.isOpenLiteral then agreeingParts below right left expected
  else agreeingParts below left right expected

def binaryParts (h : Head) (expected : Ty) : List Node → Parts
  | left :: right :: rest =>
    if isLogical h.op then conditionsParts below (left :: right :: rest)
    else operandPairParts below left right
      (if isEquality h.op || isOrder h.op then .unknown else expected)
  | _ => .none

def tupleElemsParts : List Ty → List Node → Parts
  | _, [] => .none
  | hints, n :: rest =>
    (Parts.expr n (hints.headD .unknown)).andThen (below n (hints.headD .unknown)) fun r =>
      .given r.2 fun _ => tupleElemsParts hints.tail rest

def tupleParts (expected : Ty) (cs : List Node) : Parts :=
  if cs.isEmpty then .none
  else .seeing fun t => tupleElemsParts below (tupleHints t expected cs.length) cs

def arrayElemsParts : Ty → List Node → Parts
  | _, [] => .none
  | elem, n :: rest => (Parts.expr n elem).andThen (below n elem) fun r => .given r.2 fun type =>
      if elem.isUnknown then arrayElemsParts type rest
      else .following (accepts elem type r.1.loc) fun ok =>
        if ok then arrayElemsParts elem rest else .none

def arrayParts (expected : Ty) (cs : List Node) : Parts :=
  .seeing fun t =>
    if cs.isEmpty && (elementHint t expected).isUnknown then .none
    else arrayElemsParts below (elementHint t expected) cs

def indexParts (h : Head) : List Node → Parts
  | base :: idx :: _ => (Parts.expr base .unknown).andThen (below base .unknown) fun r =>
      .given r.2 fun type => .following (elementType type h.loc) fun elem =>
        .given elem fun _ => .expr idx (.basic .usize)
  | _ => .none

/-! ## Places and assignments -/

def elementPlaceParts (loc : Location) (p : Place) (index : Node) : Parts :=
  .following (elementsPlace loc p) fun element =>
    .given element fun _ => .expr index (.basic .usize)

def placeParts : Node → Parts
  | .absent => .none
  | .mk h cs _ _ =>
    match h.kind with
    | .dot =>
      match cs with
      | left :: right :: _ => if right.kind? = some .ident then placeParts left else .none
      | _ => .none
    | .index =>
      match cs with
      | base :: idx :: _ => (placeParts base).andThen (place below base) fun r =>
          .given r.2 fun p => elementPlaceParts h.loc p idx
      | _ => .none
    | .deref => firstPart .unknown cs
    | _ => .none

def memberPlaceParts (left right : Node) : Parts :=
  if right.kind? = some .ident then placeParts below left else .none

def storedValueParts (h : Head) (expected : Ty) (value : Node) : Parts :=
  .seeing fun t =>
    if h.op ≠ "=" ∧ !(t.underlying expected).isNumeric then .none else .expr value expected

def storeParts (h : Head) (target : Option Place) (value : Node) : Parts :=
  .given target fun p => if p.writable then storedValueParts h p.type value else .none

def assignNameParts (h target : Head) (value : Node) : Parts :=
  .seeing fun t =>
    match t.lookup target.name with
    | some ⟨_, _, .var v, _⟩ =>
      match t.assignable h.op target.name v with
      | .error _ => .none
      | .ok expected =>
        if h.op ≠ "=" ∧ !v.initialized then
          .following (report target.loc (.uninitialized [target.name])) fun _ =>
            storedValueParts h expected value
        else storedValueParts h expected value
    | _ => .none

def assignParts (h : Head) : List Node → Parts
  | target :: value :: _ =>
    if target.kind? = some .ident then assignNameParts h target.head value
    else (placeParts below target).andThen (place below target) fun r => storeParts h r.2 value
  | _ => .none

/-! ## Components, arguments and chains -/

def componentsParts (fields : Fields) (owner : List Ident) : List (Component Node) → Parts
  | [] => .none
  | f :: rest => .given (fields.get? f.name) fun type => .seeing fun t =>
      (Parts.expr f.value (t.qualifyAt owner type)).andThen
        (exprOf below (t.qualifyAt owner type) f.value) fun r =>
          if r.2 then componentsParts fields owner rest else .none

def argumentParts (path : List Ident) (param : Ty) (arg : Node) : Parts :=
  if param.isUnknown then .expr arg .unknown
  else .seeing fun t => .expr arg (t.qualifyAt path param)

def argumentsParts (path : List Ident) : List Ty → List Node → Parts
  | _, [] => .none
  | params, arg :: rest => (argumentParts path (params.headD .unknown) arg).andThen
      (argument below path (params.headD .unknown) arg) fun r =>
        if r.2 then argumentsParts path params.tail rest else .none

def argumentsByNameParts (path : List Ident) (sig : Signature) : List (Component Node) → Parts
  | [] => .none
  | f :: rest => .given (sig.param? f.name) fun p =>
      (argumentParts path p.1.type f.value).andThen (argument below path p.1.type f.value) fun r =>
        if r.2 then argumentsByNameParts path sig rest else .none

def callArgumentsParts (path : List Ident) (sig : Signature) (h : Head) (cs : List Node)
    (fs : List (Component Node)) : Parts :=
  if h.named then argumentsByNameParts below path sig fs
  else .following (countArguments h.loc path sig cs.length) fun ok =>
    if ok then argumentsParts below path (sig.params.map (·.type)) cs else .none

def callParts (c : Chain) (sig : Signature) : Parts :=
  match c.tail with
  | some (.mk h cs fs _) =>
    if h.kind ≠ .call then .none
    else .following unsafeAllowed fun allowed =>
      if sig.flags.has .unsafeFn && !allowed then .none
      else callArgumentsParts below c.path sig h cs fs
  | _ => .none

def literalParts (c : Chain) (fields : Fields) (union : Bool) : Parts :=
  match c.tail with
  | some (.mk h _ fs _) =>
    if h.kind ≠ .lit then .none
    else .following unsafeAllowed fun allowed =>
      if union && !allowed then .none else componentsParts below fields c.path fs
  | _ => .none

def tuplePayloadParts (path : List Ident) : List Ty → List Node → Parts
  | type :: types, v :: rest => .seeing fun t =>
      (Parts.expr v (t.qualifyAt path type)).andThen
        (exprOf below (t.qualifyAt path type) v) fun r =>
          if r.2 then tuplePayloadParts path types rest else .none
  | _, _ => .none

def payloadParts (c : Chain) (payload : Payload) : Parts :=
  match payload, c.tail with
  | .tuple types, some (.mk h cs _ _) =>
    if h.kind ≠ .call ∨ h.named then .none
    else if cs.length ≠ types.length then .none
    else tuplePayloadParts below c.path types cs
  | .struct fields, some (.mk h _ fs _) =>
    if h.kind ≠ .lit then .none else componentsParts below fields c.path fs
  | _, _ => .none

def memberParts (h : Head) : List Node → Parts
  | left :: .mk r cs _ _ :: _ =>
    match r.kind with
    | .assign =>
      match cs with
      | target :: value :: _ => (memberPlaceParts below left target).andThen
          (memberPlace h.loc left (place below left) target) fun res => storeParts r res.2 value
      | _ => .none
    | .ident | .call | .lit => .expr left .unknown
    | _ => .none
  | _ => .none

def moduleVariableParts (c : Chain) (v : Variable) : Parts :=
  match c.tail with
  | some (.mk h (_ :: value :: _) _ _) =>
    if h.kind = .assign then
      storeParts h (some ⟨c.path.getLastD .missing, v.type, v.mutable, false⟩) value
    else .none
  | _ => .none

def namedParts (c : Chain) (e : SymbolEntry) : Parts :=
  match e.kind with
  | .variantArm _ payload _ => payloadParts below c payload
  | .structDef fields => literalParts below c fields false
  | .unionDef fields => literalParts below c fields true
  | .func sig => callParts below c sig
  | .var v => moduleVariableParts c v
  | _ => .none

def accessParts (n : Node) : Parts :=
  .seeing fun t =>
    if n.kind? = some .dot ∧ t.startsAtValue n then memberParts below n.head n.children
    else .given n.chain? fun c => .given (t.resolve c.path) (namedParts below c)

/-- The tasks that the rule for an expression leaves. -/
def exprParts (expected : Ty) : Node → Parts
  | .absent => .none
  | .mk h cs fs b =>
    match h.kind with
    | .binary => binaryParts below h expected cs
    | .unary => firstPart expected cs
    | .ref => .seeing fun t => firstPart (borrowedType t expected) cs
    | .deref | .cast => firstPart .unknown cs
    | .assign => assignParts below h cs
    | .call | .lit | .dot | .path => accessParts below (.mk h cs fs b)
    | .tuple => tupleParts below expected cs
    | .array => arrayParts below expected cs
    | .index => indexParts below h cs
    | _ => .none

end Expressions

end TreeSema.Analysis
