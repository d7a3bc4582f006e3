import TreeSema.Location
import TreeSema.OrderedMap

/-!
# Symbols

An entry of a symbol table binds a name to a definition: a module, a type, an alias, a function or
a variable. Static entries outlive the scope they are declared in; variables are never static.

The type of module bodies is a parameter, since the body of a module is a symbol table again.
-/
namespace TreeSema

/-- Where a variable lives. -/
inductive Storage where
  | automatic
  | static
  | constant
  | foreign
  | parameter
  | unknown
  deriving DecidableEq, Repr

def Storage.name : Storage → String
  | automatic => "local"
  | static => "static"
  | constant => "const"
  | foreign => "extern"
  | parameter => "param"
  | unknown => "unknown"

structure Variable where
  type : Ty
  mutable : Bool := false
  storage : Storage := .automatic
  initialized : Bool := false
  deriving DecidableEq, Repr

/-- A set of function attributes, one bit each. -/
structure Attributes where
  bits : UInt8
  deriving DecidableEq, Repr

namespace Attributes

def plain : Attributes := ⟨0⟩

/-- May only be called where unsafe operations are allowed. -/
def unsafeFn : Attributes := ⟨1⟩

/-- Defined elsewhere. -/
def foreignFn : Attributes := ⟨2⟩

/-- Takes further arguments of any type. -/
def variadicFn : Attributes := ⟨4⟩

/-- Is every attribute of `mask` in the set? -/
def has (f mask : Attributes) : Bool := f.bits &&& mask.bits == mask.bits

def union (f g : Attributes) : Attributes := ⟨f.bits ||| g.bits⟩

end Attributes

/-- A parameter, as callers see it. -/
structure Formal where
  name : Ident
  type : Ty
  mutable : Bool := false
  deriving DecidableEq, Repr

/-- A function as callers see it. -/
structure Signature where
  params : List Formal
  result : Ty
  flags : Attributes
  deriving DecidableEq, Repr

/-- The first parameter with a name, and its place. -/
def Signature.param? (s : Signature) (name : Ident) : Option (Formal × Nat) :=
  (s.params.zipIdx).find? (·.1.name == name)

/-- A value of an enum, as the enum holds it. -/
structure EnumMember where
  owner : Ident
  value : Int
  loc : Location
  deriving DecidableEq, Repr

/-- The values of an enum by name, and their names in declaration order. -/
structure EnumBody where
  values : OrderedMap EnumMember
  order : List Ident
  deriving DecidableEq, Repr

/-- What an arm of a variant carries. -/
inductive Payload where
  | common
  | tuple (types : List Ty)
  | struct (fields : Fields)
  | unknown
  deriving DecidableEq, Repr

def Payload.name : Payload → String
  | common => "common"
  | tuple _ => "tuple-like"
  | struct _ => "struct-like"
  | unknown => "unknown"

/-- An arm of a variant, as the variant holds it. Its ordinal is its number in declaration order,
which tells values of the arm apart from those of others at run time. -/
structure ArmMember where
  owner : Ident
  payload : Payload
  ordinal : Int
  loc : Location
  deriving DecidableEq, Repr

/-- The arms of a variant by name, and their names in declaration order. -/
structure VariantBody where
  arms : OrderedMap ArmMember
  order : List Ident
  deriving DecidableEq, Repr

/-- What a name stands for; `M` is the type of module bodies. -/
inductive EntryKind (M : Type) where
  | unspecified
  | aliasDef (target : Ty)
  | moduleDef (body : Option M)
  | var (v : Variable)
  | func (s : Signature)
  | structDef (fields : Fields)
  | unionDef (fields : Fields)
  | enumDef (d : EnumBody)
  | enumValue (owner : Ident) (value : Int)
  | variantDef (d : VariantBody)
  | variantArm (owner : Ident) (payload : Payload) (ordinal : Int)

namespace EntryKind

/-- How a message names what a name stands for. -/
def name {M : Type} : EntryKind M → String
  | unspecified => "unknown"
  | aliasDef _ => "alias"
  | moduleDef _ => "module"
  | var _ => "variable"
  | func _ => "function"
  | structDef _ => "struct"
  | unionDef _ => "union"
  | enumDef _ => "enum"
  | enumValue .. => "enum value"
  | variantDef _ => "variant"
  | variantArm .. => "variant arm"

/-- Changes the bodies of modules. -/
def map {M N : Type} (f : M → N) : EntryKind M → EntryKind N
  | unspecified => unspecified
  | aliasDef target => aliasDef target
  | moduleDef body => moduleDef (body.map f)
  | var v => var v
  | func s => func s
  | structDef fields => structDef fields
  | unionDef fields => unionDef fields
  | enumDef d => enumDef d
  | enumValue owner value => enumValue owner value
  | variantDef d => variantDef d
  | variantArm owner payload ordinal => variantArm owner payload ordinal

end EntryKind

structure Entry (M : Type) where
  name : Ident
  static : Bool
  kind : EntryKind M
  loc : Location := {}

namespace Entry

variable {M N : Type}

/-- A static entry. -/
def definition (name : Ident) (kind : EntryKind M) (loc : Location) : Entry M :=
  ⟨name, true, kind, loc⟩

/-- An entry for a variable, which is not static. -/
def binding (name : Ident) (v : Variable) (loc : Location) : Entry M :=
  ⟨name, false, .var v, loc⟩

def map (f : M → N) (e : Entry M) : Entry N := ⟨e.name, e.static, e.kind.map f, e.loc⟩

end Entry

/-- The entry of one value of an enum. -/
def EnumBody.entry? {M : Type} (d : EnumBody) (name : Ident) : Option (Entry M) :=
  (d.values.get? name).map fun v => .definition name (.enumValue v.owner v.value) v.loc

/-- The entry of one arm of a variant. -/
def VariantBody.entry? {M : Type} (d : VariantBody) (name : Ident) : Option (Entry M) :=
  (d.arms.get? name).map fun a =>
    .definition name (.variantArm a.owner a.payload a.ordinal) a.loc

end TreeSema
