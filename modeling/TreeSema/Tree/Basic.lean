import TreeSema.Location
import TreeSema.Ty

/-!
# Program trees

A tree node has a kind, a location and the attributes that its kind calls for, and below it
operands in order (`children`), named components (`fields`) and, for a function, a body. All kinds
share one node type, so that a pass over the tree treats the kinds it does not care about alike.
`Node.absent` stands where an operand is left out.
-/
namespace TreeSema

/-- The kinds of nodes. The last two are produced by analysis; `other` is no kind at all. -/
inductive Kind where
  | program | moduleDef | structDef | unionDef | enumDef | variantDef | funcDef | externBlock
  | varDef | staticDef | constDef | aliasDef
  | block | unsafeBlock | ifThen | whileLoop | loop | breakLoop | continueLoop | returnValue
  | assign
  | int | float | str | bool | ident | binary | unary | ref | deref | call | lit | dot | path
  | tuple | array | index | cast
  | literal | typedCall
  | other (name : String)
  deriving DecidableEq, Repr, Inhabited

namespace Kind

/-- The kinds by the words that introduce them. -/
def named : List (String × Kind) :=
  [("program", program), ("module", moduleDef), ("struct", structDef), ("union", unionDef),
   ("enum", enumDef), ("variant", variantDef), ("fn", funcDef), ("extern", externBlock),
   ("var", varDef), ("static", staticDef), ("const", constDef), ("alias", aliasDef),
   ("block", block), ("unsafe", unsafeBlock), ("if", ifThen), ("while", whileLoop),
   ("loop", loop), ("break", breakLoop), ("continue", continueLoop), ("return", returnValue),
   ("assign", assign),
   ("int", int), ("float", float), ("str", str), ("bool", bool), ("ident", ident),
   ("binary", binary), ("unary", unary), ("ref", ref), ("deref", deref), ("call", call),
   ("lit", lit), ("dot", dot), ("path", path), ("tuple", tuple), ("array", array),
   ("index", index), ("cast", cast), ("literal", literal), ("typed-call", typedCall)]

def ofName (name : String) : Kind := (named.lookup name).getD (.other name)

/-- The word that introduces a node of this kind. -/
def name : Kind → String
  | program => "program" | moduleDef => "module" | structDef => "struct" | unionDef => "union"
  | enumDef => "enum" | variantDef => "variant" | funcDef => "fn" | externBlock => "extern"
  | varDef => "var" | staticDef => "static" | constDef => "const" | aliasDef => "alias"
  | block => "block" | unsafeBlock => "unsafe" | ifThen => "if" | whileLoop => "while"
  | loop => "loop" | breakLoop => "break" | continueLoop => "continue" | returnValue => "return"
  | assign => "assign"
  | int => "int" | float => "float" | str => "str" | bool => "bool" | ident => "ident"
  | binary => "binary" | unary => "unary" | ref => "ref" | deref => "deref" | call => "call"
  | lit => "lit" | dot => "dot" | path => "path" | tuple => "tuple" | array => "array"
  | index => "index" | cast => "cast"
  | literal => "literal" | typedCall => "typed-call"
  | other name => name

end Kind

/-! ## Attributes -/

/-- A parameter of a function. -/
structure Param where
  name : Ident
  type : Ty
  mutable : Bool := false
  loc : Location := {}
  deriving DecidableEq, Repr

/-- A value of an enum; one that is not explicit is numbered from its predecessor. -/
structure EnumItem where
  name : Ident
  value : Int
  explicit : Bool
  loc : Location := {}
  deriving DecidableEq, Repr

/-- A declared field. -/
structure FieldDecl where
  name : Ident
  type : Ty
  loc : Location := {}
  deriving DecidableEq, Repr

/-- What an arm of a variant carries. -/
inductive ArmForm where
  | common
  | tuple
  | struct
  | other (code : Int)
  deriving DecidableEq, Repr

/-- An arm of a variant: `types` belong to the tuple shape and `fields` to the struct shape. -/
structure Arm where
  name : Ident
  shape : ArmForm
  types : List Ty
  fields : List FieldDecl
  loc : Location := {}
  deriving DecidableEq, Repr

/-- A named component: a declared field carries a type, a component of a literal and a named
argument carry a value. -/
structure Component (α : Type) where
  name : Ident
  type : Ty
  value : α
  loc : Location
  deriving DecidableEq, Repr

/-- What a node says by itself, without what is below it. -/
structure Head where
  kind : Kind
  loc : Location
  /-- The name that is defined, used, called or built. -/
  name : Ident := .missing
  /-- The operator of `binary`, `unary` and `assign`. -/
  op : String := ""
  /-- The value of `int`. -/
  integer : Int := 0
  /-- The content of `str` and the spelling of `float`. -/
  text : String := ""
  /-- The value of `bool`. -/
  truth : Bool := false
  /-- Declared `mut`, or a borrow with `mut`. -/
  mutable : Bool := false
  /-- A function that may only be called where unsafe operations are allowed. -/
  isUnsafe : Bool := false
  variadic : Bool := false
  /-- The arguments are `fields` and not `children`. -/
  named : Bool := false
  /-- The declared type, alias target, return type or cast target, or the type found by analysis. -/
  type : Ty := .unknown
  /-- The callee of `typedCall`. -/
  path : List Ident := []
  params : List Param := []
  values : List EnumItem := []
  arms : List Arm := []
  deriving Repr, Inhabited

/-! ## Nodes -/

inductive Node where
  | absent
  | mk (head : Head) (children : List Node) (fields : List (Component Node)) (body : Node)
  deriving Inhabited

namespace Node

/-- A node with operands only. -/
def ofChildren (head : Head) (children : List Node) : Node := .mk head children [] .absent

/-- A node with named components only. -/
def ofFields (head : Head) (fields : List (Component Node)) : Node := .mk head [] fields .absent

/-- A node with nothing below it. -/
def leaf (head : Head) : Node := .mk head [] [] .absent

def head : Node → Head
  | absent => default
  | mk h .. => h

def children : Node → List Node
  | absent => []
  | mk _ cs .. => cs

def fields : Node → List (Component Node)
  | absent => []
  | mk _ _ fs _ => fs

def body : Node → Node
  | absent => absent
  | mk _ _ _ b => b

def isAbsent : Node → Bool
  | absent => true
  | _ => false

/-- The kind of a node; an absent node has none. -/
def kind? : Node → Option Kind
  | absent => none
  | mk h .. => some h.kind

def loc : Node → Location
  | absent => {}
  | mk h .. => h.loc

def withChildren (cs : List Node) : Node → Node
  | absent => absent
  | mk h _ fs b => mk h cs fs b

/-- Is the node an access chain? -/
def isAccess (n : Node) : Bool := n.kind? == some .dot || n.kind? == some .path

/-- The component with a name: the last of several. -/
def field? (name : Ident) (n : Node) : Option (Component Node) :=
  n.fields.reverse.find? (·.name == name)

/-! ## Walking -/

mutual

/-- The nodes of a tree, parents first: of each node the operands, then the components, then the
body. What is below a node that `enter` refuses is passed over. -/
def walk (enter : Node → Bool) : Node → List Node
  | absent => []
  | n@(mk _ cs fs b) =>
    if enter n then n :: (walkAll enter cs ++ walkFields enter fs ++ walk enter b) else [n]

def walkAll (enter : Node → Bool) : List Node → List Node
  | [] => []
  | n :: ns => walk enter n ++ walkAll enter ns

def walkFields (enter : Node → Bool) : List (Component Node) → List Node
  | [] => []
  | ⟨_, _, value, _⟩ :: fs => walk enter value ++ walkFields enter fs

end

end Node

end TreeSema
