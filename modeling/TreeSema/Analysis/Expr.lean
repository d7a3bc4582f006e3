import TreeSema.Analysis.Access

/-!
# Expressions

The rules for the kinds of expressions. Each takes the operands of a node and returns them after
their analysis, with the type of the node unless something in it was rejected; operands after a
rejected one are left alone.
-/
namespace TreeSema

/-- Does the type of a literal come from its surroundings? -/
def Node.isOpenLiteral : Node → Bool
  | .absent => false
  | .mk h _ _ _ => (h.kind == .int && h.type.isUnknown) || h.kind == .float

namespace Analysis

/-- Does an operator combine truth values? -/
def isLogical (op : String) : Bool := op == "&&" || op == "||"

/-- Does an operator compare its operands for equality? -/
def isEquality (op : String) : Bool := op == "==" || op == "!="

/-- Does an operator compare its operands by size? -/
def isOrder (op : String) : Bool := op == "<" || op == ">" || op == "<=" || op == ">="

/-- Reads a variable. -/
def readName (h : Head) : Analysis (Option Ty) := do
  match (← symbols).lookup h.name with
  | none =>
    report h.loc (.notFound [h.name])
    return none
  | some e => readEntry h.loc [h.name] e

/-- Analyses expressions that have to be truth values. -/
def conditions (below : ExprRule) : List Node → Analysis (List Node × Bool)
  | [] => return ([], true)
  | n :: rest => do
    let (n, ok) ← exprOf below (.basic .bool) n
    if ok then
      let (rest, ok) ← conditions below rest
      return (n :: rest, ok)
    else return (n :: rest, false)

/-- Analyses two operands, the second of which has to have the type of the first. -/
def agreeing (below : ExprRule) (first second : Node) (expected : Ty) :
    Analysis (Node × Node × Option Ty) := do
  let (first, type) ← below first expected
  match type with
  | none => return (first, second, none)
  | some type =>
    let (second, other) ← below second type
    match other with
    | none => return (first, second, none)
    | some other =>
      let ok ← accepts type other second.loc
      return (first, second, if ok then some type else none)

/-- Analyses the operands of an operator. A literal takes its type from the operand on the other
side. -/
def operandPair (below : ExprRule) (left right : Node) (expected : Ty) :
    Analysis (Node × Node × Option Ty) := do
  if left.isOpenLiteral && !right.isOpenLiteral then
    let (right, left, type) ← agreeing below right left expected
    return (left, right, type)
  else agreeing below left right expected

/-- The type of applying an operator to operands of a type. -/
def binaryType (h : Head) (type : Ty) : Analysis (Option Ty) := do
  if isEquality h.op then return some (.basic .bool)
  let t ← symbols
  if !(t.underlying type).isNumeric then
    report h.loc (.operand h.op (t.shown type))
    return none
  return some (if isOrder h.op then .basic .bool else type)

def binary (below : ExprRule) (h : Head) (expected : Ty) :
    List Node → Analysis (List Node × Option Ty)
  | left :: right :: rest => do
    if isLogical h.op then
      let (cs, ok) ← conditions below (left :: right :: rest)
      return (cs, if ok then some (.basic .bool) else none)
    else
      let expected := if isEquality h.op || isOrder h.op then .unknown else expected
      let (left, right, type) ← operandPair below left right expected
      match type with
      | none => return (left :: right :: rest, none)
      | some type => return (left :: right :: rest, ← binaryType h type)
  | cs => missingOperand h.loc cs none

/-- May a unary operator be applied to a type without aliases at its top? -/
def unaryApplies (op : String) (type : Ty) : Bool :=
  if op = "-" then type.isNumeric
  else if op = "!" then type.equal (.basic .bool) || type.isInteger
  else if op = "~" then type.isInteger
  else false

def unary (below : ExprRule) (h : Head) (expected : Ty) :
    List Node → Analysis (List Node × Option Ty)
  | operand :: rest => do
    let (operand, type) ← below operand expected
    match type with
    | none => return (operand :: rest, none)
    | some type =>
      let t ← symbols
      if unaryApplies h.op (t.underlying type) then return (operand :: rest, some type)
      report h.loc (.operand h.op (t.shown type))
      return (operand :: rest, none)
  | cs => missingOperand h.loc cs none

/-- The type that the operand of a borrow should have for the borrow to have the expected type. -/
def borrowedType (t : Symbols) (expected : Ty) : Ty :=
  match t.underlying expected with
  | .ref target _ => target
  | .ptr target => target
  | _ => .unknown

/-- A borrow; a mutable one needs an operand that may be written. -/
def borrow (below : ExprRule) (h : Head) (expected : Ty) :
    List Node → Analysis (List Node × Option Ty)
  | operand :: rest => do
    let (operand, type) ← below operand (borrowedType (← symbols) expected)
    match type with
    | none => return (operand :: rest, none)
    | some type =>
      match (← symbols).immutableRoot? operand, h.mutable with
      | some name, true =>
        report h.loc (.borrowImmutable name)
        return (operand :: rest, none)
      | _, _ => return (operand :: rest, some (.ref type h.mutable))
  | cs => missingOperand h.loc cs none

def deref (below : ExprRule) (h : Head) : List Node → Analysis (List Node × Option Ty)
  | operand :: rest => do
    let (operand, type) ← below operand .unknown
    match type with
    | none => return (operand :: rest, none)
    | some type =>
      let t ← symbols
      match t.underlying type with
      | .ref target _ => return (operand :: rest, some target)
      | .ptr target => return (operand :: rest, some target)
      | _ =>
        report h.loc (.notReference (t.shown type))
        return (operand :: rest, none)
  | cs => missingOperand h.loc cs none

/-- Analyses the elements of a tuple, each with the type that its place calls for. -/
def tupleElems (below : ExprRule) : List Ty → List Node → Analysis (List Node × Option (List Ty))
  | _, [] => return ([], some [])
  | hints, n :: rest => do
    let (n, type) ← below n (hints.headD .unknown)
    match type with
    | none => return (n :: rest, none)
    | some type =>
      let (rest, types) ← tupleElems below hints.tail rest
      return (n :: rest, types.map (type :: ·))

/-- The types that the elements of a tuple should have for the tuple to have the expected type. -/
def tupleHints (t : Symbols) (expected : Ty) (size : Nat) : List Ty :=
  match t.underlying expected with
  | .tuple elems => if elems.length = size then elems else []
  | _ => []

def tuple (below : ExprRule) (expected : Ty) (cs : List Node) :
    Analysis (List Node × Option Ty) := do
  if cs.isEmpty then return (cs, some .unit)
  let (cs, types) ← tupleElems below (tupleHints (← symbols) expected cs.length) cs
  return (cs, types.map .tuple)

/-- Analyses the elements of an array. The first gives the others their type if that is unknown. -/
def arrayElems (below : ExprRule) : Ty → List Node → Analysis (List Node × Option Ty)
  | elem, [] => return ([], some elem)
  | elem, n :: rest => do
    let (n, type) ← below n elem
    match type with
    | none => return (n :: rest, none)
    | some type =>
      if elem.isUnknown then
        let (rest, elem) ← arrayElems below type rest
        return (n :: rest, elem)
      else if ← accepts elem type n.loc then
        let (rest, elem) ← arrayElems below elem rest
        return (n :: rest, elem)
      else return (n :: rest, none)

/-- The type that the elements of an array should have for the array to have the expected type. -/
def elementHint (t : Symbols) (expected : Ty) : Ty :=
  match t.underlying expected with
  | .array _ elem => elem
  | _ => .unknown

def array (below : ExprRule) (h : Head) (expected : Ty) (cs : List Node) :
    Analysis (List Node × Option Ty) := do
  let elem := elementHint (← symbols) expected
  if cs.isEmpty && elem.isUnknown then
    report h.loc .emptyArray
    return (cs, none)
  let (cs, elem) ← arrayElems below elem cs
  return (cs, elem.map (.array cs.length))

def index (below : ExprRule) (h : Head) : List Node → Analysis (List Node × Option Ty)
  | base :: idx :: rest => do
    let (base, type) ← below base .unknown
    match type with
    | none => return (base :: idx :: rest, none)
    | some type =>
      match ← elementType type h.loc with
      | none => return (base :: idx :: rest, none)
      | some elem =>
        let (idx, ok) ← indexExpr below idx
        return (base :: idx :: rest, if ok then some elem else none)
  | cs => missingOperand h.loc cs none

def cast (below : ExprRule) (h : Head) : List Node → Analysis (List Node × Option Ty)
  | operand :: rest => do
    let (operand, type) ← below operand .unknown
    match type with
    | none => return (operand :: rest, none)
    | some _ =>
      let ok ← checkType h.loc h.type
      return (operand :: rest, if ok then some h.type else none)
  | cs => missingOperand h.loc cs none

/-- Analyses an expression, given what is made of the nodes below it. -/
def exprStep (below : ExprRule) (expected : Ty) : Node → Analysis Typed
  | .absent => do
    report {} (.defect .missingOperand)
    return (.absent, none)
  | .mk h cs fs b => do
    let n := Node.mk h cs fs b
    match h.kind with
    | .int =>
      let t ← symbols
      return (n, some (if h.type.isUnknown then t.integerType expected else h.type))
    | .float => return (n, some ((← symbols).floatType expected))
    | .str => return (n, some (.basic .str))
    | .bool => return (n, some (.basic .bool))
    | .ident => return (n, ← readName h)
    | .binary => around h fs b (binary below h expected cs)
    | .unary => around h fs b (unary below h expected cs)
    | .ref => around h fs b (borrow below h expected cs)
    | .deref => around h fs b (deref below h cs)
    | .assign =>
      let (cs, ok) ← assign below h cs
      return (.mk h cs fs b, unitIf ok)
    | .call | .lit | .dot | .path => access below n
    | .tuple => around h fs b (tuple below expected cs)
    | .array => around h fs b (array below h expected cs)
    | .index => around h fs b (index below h cs)
    | .cast => around h fs b (cast below h cs)
    | .literal | .typedCall => return (n, some h.type)
    | kind =>
      report h.loc (.defect (.notExpression kind))
      return (n, none)

end Analysis

end TreeSema
