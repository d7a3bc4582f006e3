import TreeSema.Datum.Printer
import TreeSema.Datum.Reader
import TreeSema.Text.Quoted
import TreeSema.Text.Real
import TreeSema.Tree.Basic

/-!
# Reading trees

A tree is read from a datum. Each kind of node has its own operands, and the reader takes only
nodes with the right ones; it reports the first thing that is wrong, from left to right.
-/
namespace TreeSema

open Text (Pos int64?)

/-- What the reader of trees looks for in one place. -/
inductive Sought where
  | node
  | name
  | operator
  | calleePath
  | fieldDecl
  | enumValue
  | integer
  | arm
  | armForm
  | params
  | param
  | type
  deriving DecidableEq, Repr

def Sought.describe : Sought → String
  | node => "a node"
  | name => "a name"
  | operator => "an operator"
  | calleePath => "a callee path"
  | fieldDecl => "(field NAME TYPE)"
  | enumValue => "(value NAME INT?)"
  | integer => "an integer"
  | arm => "an arm"
  | armForm => "(arm ...), (arm-tuple ...) or (arm-struct ...)"
  | params => "(params ...)"
  | param => "(NAME TYPE)"
  | type => "a type"

/-- The forms of a type that have operands. -/
inductive TypeForm where
  | ref
  | ptr
  | array
  | template
  deriving DecidableEq, Repr

/-- Why a datum is no tree. -/
inductive TreeFault where
  | syntactic (fault : SyntaxFault)
  | unexpected (found : Datum)
  | mistaken (sought : Sought) (found : Datum)
  | operands (kind : Kind)
  | typeOperands (form : TypeForm)
  | unknownKind (name : String)
  | invalidInteger (text : String)
  | invalidFloat (text : String)
  | invalidSize (text : String)
  | malformedPath (text : String)
  | malformedType (text : String)
  | uninferable
  | payload
  | attributeValue (key : String)
  | unknownAttribute (key : String)
  | bodyForm
  | notProgram (kind : Kind)

/-- How a message puts that a node of a kind has the wrong operands. -/
def Kind.operandRule : Kind → String
  | .aliasDef => "alias needs a name and a type"
  | .ifThen => "if needs a condition, a body and an optional else"
  | .whileLoop => "while needs a condition and a body"
  | .loop => "loop needs a body"
  | .returnValue => "return takes at most one value"
  | .int => "expected (int TYPE N)"
  | .float => "expected (float \"digits\")"
  | .unary => "unary needs an operator and an operand"
  | .ref => "ref needs one operand"
  | .deref => "deref needs one operand"
  | .call => "call needs a callee"
  | .lit => "expected (lit NAME \x7bfield: value, ...\x7d)"
  | .index => "index needs a base and an index"
  | .cast => "cast needs an operand and a type"
  | .literal => "expected (literal TYPE \x7bfield: value, ...\x7d)"
  | .typedCall => "expected (typed-call TYPE PATH ARG...)"
  | .funcDef => "expected (fn NAME (params ...) RET BODY?)"
  | .breakLoop => "break takes no operands"
  | .continueLoop => "continue takes no operands"
  | .binary => "binary needs an operator and two operands"
  | .assign => "assign needs an operator and two operands"
  | .dot => "dot needs at least two operands"
  | .path => "path needs at least two operands"
  | .varDef => "expected (var [mut] NAME TYPE INIT?)"
  | .staticDef => "expected (static [mut] NAME TYPE INIT?)"
  | .constDef => "expected (const [mut] NAME TYPE INIT?)"
  | kind => s!"{kind.name} needs a name"

def TypeForm.rule : TypeForm → String
  | .ref => "expected (ref [mut] T)"
  | .ptr => "expected (ptr T)"
  | .array => "expected (array N T)"
  | .template => "expected (template NAME T...)"

def TreeFault.message : TreeFault → String
  | .syntactic fault => fault.message
  | .unexpected d => s!"unexpected {d.render}"
  | .mistaken sought d => s!"expected {sought.describe} but got {d.render}"
  | .operands kind => kind.operandRule
  | .typeOperands form => form.rule
  | .unknownKind name => s!"unknown node {name}"
  | .invalidInteger text => s!"invalid integer {text}"
  | .invalidFloat text => s!"invalid float {Text.quote text}"
  | .invalidSize text => s!"invalid array size {text}"
  | .malformedPath text => s!"malformed path {text}"
  | .malformedType text => s!"malformed type {text}"
  | .uninferable => "cannot infer a component type"
  | .payload => "a common arm has no payload"
  | .attributeValue key => s!"expected true or false for {key}"
  | .unknownAttribute key => s!"unknown function attribute {key}"
  | .bodyForm => "function body must be a block"
  | .notProgram kind => s!"expected (program ...) but got {kind.name}"

structure TreeError where
  loc : Location
  fault : TreeFault

def TreeError.message (e : TreeError) : String := s!"{e.loc.toString}: {e.fault.message}"

/-- The location of a place in a unit. -/
def Location.ofPos (unit : String) (p : Pos) : Location := ⟨unit, p.line, p.col⟩

namespace TreeReader

/-- What reading a part of a tree gives. -/
abbrev Read := Except TreeError

variable (unit : String)

def fail {α : Type} (p : Pos) (fault : TreeFault) : Read α := .error ⟨.ofPos unit p, fault⟩

/-! ## Names and numbers -/

/-- A single name; `_` is none. -/
def readName (d : Datum) : Read Ident :=
  match d with
  | .atom p _ .symbol text =>
    if (segments text).length > 1 || text == "_" then fail unit p (.mistaken .name d)
    else .ok (.name text)
  | _ => fail unit d.pos (.mistaken .name d)

def readOperator (d : Datum) : Read String :=
  match d with
  | .atom _ _ .symbol text => .ok text
  | .atom _ _ .string text => .ok text
  | _ => fail unit d.pos (.mistaken .operator d)

def readInteger (p : Pos) (text : String) : Read Int :=
  match int64? text with
  | some n => .ok n
  | none => fail unit p (.invalidInteger text)

/-! ## Types -/

/-- The type that a symbol names: nothing yet, a primitive type or a path. -/
def readTypeName (p : Pos) (text : String) : Read Ty :=
  if text = "_" then .ok .unknown
  else
    match Basic.ofName? text with
    | some b => .ok (.basic b)
    | none =>
      let path := segments text
      if path.contains "" then fail unit p (.malformedType text)
      else .ok (.custom (path.map Ident.name))

mutual

def readType (d : Datum) : Read Ty :=
  match d with
  | .atom p _ .symbol text => readTypeName unit p text
  | .list _ _ [] => .ok .unit
  | .list p _ (.atom _ _ .symbol "ref" :: args) =>
    match args with
    | [t] => return .ref (← readType t) false
    | [m, t] =>
      if m.isSymbol "mut" then return .ref (← readType t) true
      else fail unit p (.typeOperands .ref)
    | _ => fail unit p (.typeOperands .ref)
  | .list p _ (.atom _ _ .symbol "ptr" :: args) =>
    match args with
    | [t] => return .ptr (← readType t)
    | _ => fail unit p (.typeOperands .ptr)
  | .list _ _ (.atom _ _ .symbol "tuple" :: args) => do
    match ← readTypes args with
    | [] => return .unit
    | ts => return .tuple ts
  | .list p _ (.atom _ _ .symbol "array" :: args) =>
    match args with
    | [.atom q _ .integer text, t] =>
      match (int64? text).filter (0 ≤ ·) with
      | some size => return .array size (← readType t)
      | none => fail unit q (.invalidSize text)
    | _ => fail unit p (.typeOperands .array)
  | .list p _ (.atom _ _ .symbol "template" :: args) =>
    match args with
    | name :: ts => return .template (← readName unit name) (← readTypes ts)
    | [] => fail unit p (.typeOperands .template)
  | d => fail unit d.pos (.mistaken .type d)

/-- Reads types none of which may be left to be inferred. -/
def readTypes : List Datum → Read (List Ty)
  | [] => .ok []
  | d :: ds => do
    let t ← readType d
    if t.isUnknown then fail unit d.pos .uninferable
    else return t :: (← readTypes ds)

end

/-! ## Declarations -/

/-- Reads `(field NAME TYPE)`. -/
def readFieldDecl (d : Datum) : Read FieldDecl :=
  match d with
  | .list p _ [.atom _ _ .symbol "field", name, type] =>
    return ⟨← readName unit name, ← readType unit type, .ofPos unit p⟩
  | _ => fail unit d.pos (.mistaken .fieldDecl d)

/-- Reads `(value NAME INT?)`. -/
def readEnumValue (d : Datum) : Read EnumItem :=
  match d with
  | .list p _ [.atom _ _ .symbol "value", name] =>
    return ⟨← readName unit name, 0, false, .ofPos unit p⟩
  | .list p _ [.atom _ _ .symbol "value", name, value] => do
    let name ← readName unit name
    match value with
    | .atom q _ .integer text => return ⟨name, ← readInteger unit q text, true, .ofPos unit p⟩
    | _ => fail unit value.pos (.mistaken .integer value)
  | _ => fail unit d.pos (.mistaken .enumValue d)

/-- Reads `(arm NAME)`, `(arm-tuple NAME TYPE...)` or `(arm-struct NAME FIELD...)`. -/
def readArm (d : Datum) : Read Arm :=
  match d.contents with
  | _ :: name :: rest => do
    let name ← readName unit name
    let loc := Location.ofPos unit d.pos
    match d.head with
    | "arm" =>
      if rest.isEmpty then return ⟨name, .common, [], [], loc⟩ else fail unit d.pos .payload
    | "arm-tuple" => return ⟨name, .tuple, ← rest.mapM (readType unit), [], loc⟩
    | "arm-struct" => return ⟨name, .struct, [], ← rest.mapM (readFieldDecl unit), loc⟩
    | _ => fail unit d.pos (.mistaken .armForm d)
  | _ => fail unit d.pos (.mistaken .arm d)

/-- Reads `(NAME TYPE)` or `(mut NAME TYPE)`. -/
def readParam (d : Datum) : Read Param :=
  match d with
  | .list p _ [name, type] =>
    return ⟨← readName unit name, ← readType unit type, false, .ofPos unit p⟩
  | .list p _ [m, name, type] =>
    if m.isSymbol "mut" then
      return ⟨← readName unit name, ← readType unit type, true, .ofPos unit p⟩
    else fail unit p (.mistaken .param d)
  | _ => fail unit d.pos (.mistaken .param d)

def readParams (d : Datum) : Read (List Param) :=
  match d with
  | .list _ _ (.atom _ _ .symbol "params" :: params) => params.mapM (readParam unit)
  | _ => fail unit d.pos (.mistaken .params d)

/-- Reads the attributes of a function written at `p` from its metadata. -/
def readAttributes (p : Pos) : List (String × Datum) → Head → Read Head
  | [], h => .ok h
  | (key, value) :: rest, h =>
    let on := value.isSymbol "true"
    if !on && !value.isSymbol "false" then fail unit value.pos (.attributeValue key)
    else
      match key with
      | "unsafe" => readAttributes p rest { h with isUnsafe := on }
      | "variadic" => readAttributes p rest { h with variadic := on }
      | _ => fail unit p (.unknownAttribute key)

/-- Reads a variable definition, of which the initializer is given as it reads. -/
def readVariable (h : Head) (mutable : Bool) (name type : Datum) (init : Read (List Node)) :
    Read Node := do
  let name ← readName unit name
  let type ← readType unit type
  return .ofChildren { h with mutable, name, type } (← init)

/-- Reads everything of a function but its body, which is given as it reads. -/
def readFunction (h : Head) (p : Pos) (notes : List (String × Datum)) (name params type : Datum)
    (body : Read Node) : Read Node := do
  let h ← readAttributes unit p notes h
  let name ← readName unit name
  let params ← readParams unit params
  let type ← readType unit type
  return .mk { h with name, params, type } [] [] (← body)

/-- Reads the type and the callee of a resolved call. -/
def readCallee (h : Head) (type callee : Datum) : Read Head := do
  let type ← readType unit type
  match callee with
  | .atom _ _ .symbol text => return { h with type, path := (segments text).map Ident.name }
  | _ => fail unit callee.pos (.mistaken .calleePath callee)

/-! ## Nodes -/

/-- Reads a bare name: a truth value, an identifier, or a chain of them that nests to the left. -/
def readSymbol (p : Pos) (text : String) : Read Node :=
  let loc := Location.ofPos unit p
  let ident (s : String) : Node := .leaf { kind := .ident, loc, name := .name s }
  if text = "true" || text = "false" then
    .ok (.leaf { kind := .bool, loc, truth := text == "true" })
  else
    let parts := segments text
    if parts.contains "" then fail unit p (.malformedPath text)
    else
      match parts with
      | [] => fail unit p (.malformedPath text)
      | first :: rest =>
        .ok (rest.foldl (fun n s => .ofChildren { kind := .path, loc } [n, ident s]) (ident first))

/-- Can a node of this kind, which has nothing but operands, have `n` of them? -/
def takes (kind : Kind) (n : Nat) : Bool :=
  match kind with
  | .ifThen => n == 2 || n == 3
  | .whileLoop | .index => n == 2
  | .loop | .deref => n == 1
  | .breakLoop | .continueLoop => n == 0
  | .returnValue => n ≤ 1
  | _ => true

/-- Nests the operands of an access chain to the left. -/
def nest (h : Head) (left : Node) (rest : List Node) : Node :=
  rest.foldl (fun l r => .ofChildren h [l, r]) left

mutual

def readNode (d : Datum) : Read Node :=
  match d with
  | .atom p _ .integer text =>
    return .leaf { kind := .int, loc := .ofPos unit p, integer := ← readInteger unit p text }
  | .atom p _ .string text => .ok (.leaf { kind := .str, loc := .ofPos unit p, text })
  | .atom p _ .symbol text => readSymbol unit p text
  | .list p notes (.atom _ _ .symbol word :: args) =>
    let h : Head := { kind := .ofName word, loc := .ofPos unit p }
    let wrong : Read Node := fail unit p (.operands h.kind)
    match h.kind with
    | .program | .block | .unsafeBlock | .externBlock | .tuple | .array | .ifThen | .whileLoop
    | .loop | .breakLoop | .continueLoop | .returnValue | .deref | .index =>
      if takes h.kind args.length then return .ofChildren h (← readNodes args) else wrong
    | .moduleDef =>
      match args with
      | [] => wrong
      | name :: rest =>
        return .ofChildren { h with name := ← readName unit name } (← readNodes rest)
    | .structDef | .unionDef =>
      match args with
      | [] => wrong
      | name :: rest => do
        let name ← readName unit name
        let decls ← rest.mapM (readFieldDecl unit)
        return .ofFields { h with name } (decls.map fun f => ⟨f.name, f.type, .absent, f.loc⟩)
    | .enumDef =>
      match args with
      | [] => wrong
      | name :: rest => do
        let name ← readName unit name
        return .leaf { h with name, values := ← rest.mapM (readEnumValue unit) }
    | .variantDef =>
      match args with
      | [] => wrong
      | name :: rest => do
        let name ← readName unit name
        return .leaf { h with name, arms := ← rest.mapM (readArm unit) }
    | .funcDef =>
      match args with
      | [name, params, type] => readFunction unit h p notes name params type (.ok .absent)
      | [name, params, type, body] =>
        readFunction unit h p notes name params type do
          let b ← readNode body
          if b.head.kind = .block then return b else fail unit body.pos .bodyForm
      | _ => wrong
    | .aliasDef =>
      match args with
      | [name, type] => do
        let name ← readName unit name
        return .leaf { h with name, type := ← readType unit type }
      | _ => wrong
    | .varDef | .staticDef | .constDef =>
      match args with
      | [a, b] => if a.isSymbol "mut" then wrong else readVariable unit h false a b (.ok [])
      | [a, b, c] =>
        if a.isSymbol "mut" then readVariable unit h true b c (.ok [])
        else readVariable unit h false a b do return [← readNode c]
      | [a, b, c, d] =>
        if a.isSymbol "mut" then readVariable unit h true b c do return [← readNode d] else wrong
      | _ => wrong
    | .int =>
      match args with
      | [type, .atom q _ .integer text] => do
        let integer ← readInteger unit q text
        return .leaf { h with integer, type := ← readType unit type }
      | _ => wrong
    | .float =>
      match args with
      | [.atom q _ .string text] =>
        if Text.isReal text then .ok (.leaf { h with text }) else fail unit q (.invalidFloat text)
      | _ => wrong
    | .binary | .assign =>
      match args with
      | [op, a, b] => do
        let op ← readOperator unit op
        return .ofChildren { h with op } [← readNode a, ← readNode b]
      | _ => wrong
    | .unary =>
      match args with
      | [op, a] => do
        let op ← readOperator unit op
        return .ofChildren { h with op } [← readNode a]
      | _ => wrong
    | .ref =>
      match args with
      | [a] => return .ofChildren h [← readNode a]
      | [m, a] =>
        if m.isSymbol "mut" then return .ofChildren { h with mutable := true } [← readNode a]
        else wrong
      | _ => wrong
    | .call =>
      match args with
      | [] => wrong
      | [name, .map _ _ entries] => do
        let name ← readName unit name
        return .ofFields { h with name, named := true } (← readComponents entries)
      | name :: rest =>
        return .ofChildren { h with name := ← readName unit name } (← readNodes rest)
    | .lit =>
      match args with
      | [name, .map _ _ entries] =>
        return .ofFields { h with name := ← readName unit name } (← readComponents entries)
      | _ => wrong
    | .dot | .path =>
      match args with
      | left :: rest =>
        if rest.isEmpty then wrong else return nest h (← readNode left) (← readNodes rest)
      | [] => wrong
    | .cast =>
      match args with
      | [a, type] => do
        let a ← readNode a
        return .ofChildren { h with type := ← readType unit type } [a]
      | _ => wrong
    | .literal =>
      match args with
      | [type, .map _ _ entries] =>
        return .ofFields { h with type := ← readType unit type } (← readComponents entries)
      | _ => wrong
    | .typedCall =>
      match args with
      | [type, callee, .map _ _ entries] => do
        let h ← readCallee unit h type callee
        return .ofFields { h with named := true } (← readComponents entries)
      | type :: callee :: rest =>
        return .ofChildren (← readCallee unit h type callee) (← readNodes rest)
      | _ => wrong
    | .str | .bool | .ident | .other _ =>
      if word = "" then fail unit p (.mistaken .node d) else fail unit p (.unknownKind word)
  | .list p _ _ => fail unit p (.mistaken .node d)
  | _ => fail unit d.pos (.unexpected d)

def readNodes : List Datum → Read (List Node)
  | [] => .ok []
  | d :: ds => return (← readNode d) :: (← readNodes ds)

/-- Reads named values; each stands where its value does. -/
def readComponents : List (String × Datum) → Read (List (Component Node))
  | [] => .ok []
  | (key, d) :: rest => do
    let value ← readNode d
    return ⟨.name key, .unknown, value, value.loc⟩ :: (← readComponents rest)

end

/-- Reads a whole program from a datum. -/
def readProgram (d : Datum) : Read Node := do
  let n ← readNode unit d
  if n.head.kind = .program then return n else fail unit d.pos (.notProgram n.head.kind)

end TreeReader

/-- Reads a program from its text. -/
def Node.read (src unit : String) : Except TreeError Node :=
  match Datum.read src with
  | .error e => .error ⟨.ofPos unit e.pos, .syntactic e.fault⟩
  | .ok d => TreeReader.readProgram unit d

end TreeSema
