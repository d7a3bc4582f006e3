import TreeSema.Analysis.Below
import TreeSema.Analysis.Chain

/-!
# Calls

The arguments of a call are checked against the parameters, in order or by name. An accepted call
becomes a call that carries the result type and the full name of the function, with the arguments
in the order of the parameters.
-/
namespace TreeSema.Analysis

/-- Analyses an argument for a parameter of the function at `path`; an argument without a parameter
may have any type. -/
def argument (below : ExprRule) (path : List Ident) (param : Ty) (arg : Node) :
    Analysis (Node × Bool) := do
  if param.isUnknown then
    let (arg, type) ← below arg .unknown
    return (arg, type.isSome)
  else exprOf below ((← symbols).qualifyAt path param) arg

/-- Analyses arguments in order. -/
def arguments (below : ExprRule) (path : List Ident) :
    List Ty → List Node → Analysis (List Node × Bool)
  | _, [] => return ([], true)
  | params, arg :: rest => do
    let (arg, ok) ← argument below path (params.headD .unknown) arg
    if ok then
      let (rest, ok) ← arguments below path params.tail rest
      return (arg :: rest, ok)
    else return (arg :: rest, false)

/-- Checks the number of arguments; a variadic function takes more than it has parameters. -/
def countArguments (loc : Location) (path : List Ident) (s : Signature) (count : Nat) :
    Analysis Bool := do
  let params := s.params.length
  if s.flags.has .variadicFn then
    if count < params then
      report loc (.argCountAtLeast path params count)
      return false
  else if count ≠ params then
    report loc (.argCount path params count)
    return false
  return true

/-- Analyses named arguments in the order they are given. -/
def argumentsByName (below : ExprRule) (path : List Ident) (s : Signature) :
    List (Component Node) → Analysis (List (Component Node) × Bool)
  | [] => return ([], true)
  | f :: rest => do
    match s.param? f.name with
    | none =>
      report f.loc (.noParam path f.name)
      return (f :: rest, false)
    | some (param, _) =>
      let (value, ok) ← argument below path param.type f.value
      let f := { f with value }
      if ok then
        let (rest, ok) ← argumentsByName below path s rest
        return (f :: rest, ok)
      else return (f :: rest, false)

/-- The value given to a name: the last of several. -/
def givenValue? (given : List (Component Node)) (name : Ident) : Option Node :=
  (given.reverse.find? (·.name == name)).map (·.value)

/-- Puts named arguments in the order of the parameters, all of which have to be given. -/
def inOrder (loc : Location) (path : List Ident) (given : List (Component Node)) :
    List Formal → Analysis (Option (List Node))
  | [] => return some []
  | p :: rest => do
    match givenValue? given p.name with
    | none =>
      report loc (.missingArg p.name path)
      return none
    | some value => return (← inOrder loc path given rest).map (value :: ·)

/-- Analyses the arguments of a call. Beside the call it returns the arguments in the order of the
parameters, if they are accepted. -/
def callArguments (below : ExprRule) (path : List Ident) (s : Signature) (h : Head)
    (cs : List Node) (fs : List (Component Node)) (b : Node) :
    Analysis (Node × Option (List Node)) := do
  if h.named then
    let (fs, ok) ← argumentsByName below path s fs
    let args ← if ok then inOrder h.loc path fs s.params else pure none
    return (.mk h cs fs b, args)
  else if ← countArguments h.loc path s cs.length then
    let (cs, ok) ← arguments below path (s.params.map (·.type)) cs
    return (.mk h cs fs b, if ok then some cs else none)
  else return (.mk h cs fs b, none)

/-- Analyses a chain that names a function. -/
def call (below : ExprRule) (n : Node) (c : Chain) (s : Signature) : Analysis Typed := do
  match c.tail with
  | none =>
    report n.loc (.unexpectedKind .value "function" c.path)
    return (n, none)
  | some .absent =>
    report n.loc (.noConstructor c.path)
    return (n, none)
  | some (.mk h cs fs b) =>
    if h.kind ≠ .call then
      report n.loc (.noConstructor c.path)
      return (n, none)
    if s.flags.has .unsafeFn && !(← unsafeAllowed) then
      report n.loc (.unsafeCall c.path)
      return (n, none)
    let (tail, args) ← callArguments below c.path s h cs fs b
    match args with
    | none => return (n.withTail tail, none)
    | some args =>
      let t ← symbols
      let type := t.qualifyAt c.path s.result
      let head : Head := { kind := .typedCall, loc := n.loc, type, path := t.canonical c.path }
      return (.ofChildren head args, some type)

end TreeSema.Analysis
