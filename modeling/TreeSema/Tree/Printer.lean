import TreeSema.Datum.Printer
import TreeSema.Tree.Basic

/-!
# Writing trees

A node is written as a list that starts with the word for its kind. Integers, strings, truth
values and names are written as themselves. A program takes one line for each of its parts.
-/
namespace TreeSema

open Datum (symbol str integer ofItems ofEntries)

/-! ## Types -/

namespace Ty

mutual

def toDatum : Ty → Datum
  | unknown => symbol "_"
  | basic b => symbol b.toString
  | unit => ofItems []
  | ref t true => ofItems [symbol "ref", symbol "mut", toDatum t]
  | ref t false => ofItems [symbol "ref", toDatum t]
  | ptr t => ofItems [symbol "ptr", toDatum t]
  | tuple ts => ofItems (symbol "tuple" :: toData ts)
  | array n t => ofItems [symbol "array", integer (ToString.toString n), toDatum t]
  | template name ts => ofItems (symbol "template" :: symbol name.text :: toData ts)
  | custom path => symbol (Ident.joinPath path)

def toData : List Ty → List Datum
  | [] => []
  | t :: ts => toDatum t :: toData ts

end

end Ty

/-! ## Attributes -/

def Param.toDatum (p : Param) : Datum :=
  let items := [symbol p.name.text, p.type.toDatum]
  ofItems (if p.mutable then symbol "mut" :: items else items)

def EnumItem.toDatum (v : EnumItem) : Datum :=
  let number := if v.explicit then [integer (toString v.value)] else []
  ofItems (symbol "value" :: symbol v.name.text :: number)

/-- The written form of a declared field. -/
def fieldDatum (name : Ident) (type : Ty) : Datum :=
  ofItems [symbol "field", symbol name.text, type.toDatum]

def Arm.toDatum (a : Arm) : Datum :=
  match a.shape with
  | .tuple => ofItems (symbol "arm-tuple" :: symbol a.name.text :: Ty.toData a.types)
  | .struct =>
    ofItems (symbol "arm-struct" :: symbol a.name.text
      :: a.fields.map fun f => fieldDatum f.name f.type)
  | _ => ofItems [symbol "arm", symbol a.name.text]

/-- The metadata of a written function. -/
def Head.notes (h : Head) : List (String × Datum) :=
  (if h.isUnsafe then [("unsafe", symbol "true")] else [])
    ++ (if h.variadic then [("variadic", symbol "true")] else [])

/-! ## Nodes -/

namespace Node

/-- The written form of a node, given those of its operands, of its components' values and of its
body. -/
def datumOf (h : Head) (children : List Datum) (fields : List (Component Datum))
    (body : Option Datum) : Datum :=
  let form (items : List Datum) : Datum := ofItems (symbol h.kind.name :: items)
  let name := symbol h.name.text
  let components := ofEntries (fields.map fun f => (f.name.text, f.value))
  let arguments := if h.named then [components] else children
  let mark := if h.mutable then [symbol "mut"] else []
  match h.kind with
  | .int =>
    let value := integer (toString h.integer)
    if h.type.isUnknown then value else form [h.type.toDatum, value]
  | .str => str h.text
  | .bool => symbol (if h.truth then "true" else "false")
  | .float => form [str h.text]
  | .ident => name
  | .program | .block | .unsafeBlock | .externBlock | .tuple | .array | .ifThen | .whileLoop
  | .loop | .breakLoop | .continueLoop | .returnValue | .deref | .index | .dot | .path =>
    form children
  | .moduleDef => form (name :: children)
  | .structDef | .unionDef => form (name :: fields.map fun f => fieldDatum f.name f.type)
  | .enumDef => form (name :: h.values.map EnumItem.toDatum)
  | .variantDef => form (name :: h.arms.map Arm.toDatum)
  | .funcDef =>
    let params := ofItems (symbol "params" :: h.params.map Param.toDatum)
    .list .nowhere h.notes
      (symbol h.kind.name :: name :: params :: h.type.toDatum :: body.toList)
  | .aliasDef => form [name, h.type.toDatum]
  | .varDef | .staticDef | .constDef => form (mark ++ name :: h.type.toDatum :: children)
  | .binary | .assign | .unary => form (symbol h.op :: children)
  | .ref => form (mark ++ children)
  | .cast => form (children ++ [h.type.toDatum])
  | .call => form (name :: arguments)
  | .lit => form [name, components]
  | .literal => form [h.type.toDatum, components]
  | .typedCall => form (h.type.toDatum :: symbol (Ident.joinPath h.path) :: arguments)
  | .other _ => form []

mutual

/-- The written form of a node; a missing one is written `_`. -/
def toDatum : Node → Datum
  | absent => symbol "_"
  | mk h cs fs b => datumOf h (toData cs) (toComponents fs) (toBody b)

def toData : List Node → List Datum
  | [] => []
  | n :: ns => toDatum n :: toData ns

def toComponents : List (Component Node) → List (Component Datum)
  | [] => []
  | ⟨name, type, value, loc⟩ :: fs => ⟨name, type, toDatum value, loc⟩ :: toComponents fs

def toBody : Node → Option Datum
  | absent => none
  | mk h cs fs b => some (datumOf h (toData cs) (toComponents fs) (toBody b))

end

/-- The text of a tree. -/
def render : Node → String
  | absent => ""
  | n@(mk h cs _ _) =>
    if h.kind = .program then
      "(program" ++ String.join ((toData cs).map fun d => "\n  " ++ d.render) ++ ")"
    else n.toDatum.render

end Node

end TreeSema
