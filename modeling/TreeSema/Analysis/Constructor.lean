import TreeSema.Analysis.Chain
import TreeSema.Analysis.Component

/-!
# Constructors of variants

A value of a variant is encoded as a number that says which arm it belongs to and a payload, which
is a union with one member for each arm. The member for an arm `A` of `V` is a struct of its own,
`V__A`: it is empty for an arm that carries nothing, has the fields `_0`, `_1`, … for an arm that
carries a tuple, and the named fields for an arm that carries a struct.
-/
namespace TreeSema

/-- The struct that holds what an arm of a variant carries. -/
def payloadStruct (owner arm : Ident) : Ident := .name (owner.text ++ "__" ++ arm.text)

/-- The name of the component of a tuple at a place. -/
def componentName (i : Nat) : Ident := .name s!"_{i}"

namespace Analysis

/-- The encoding of a value of the variant at `owner`. -/
def encodeArm (loc : Location) (owner payloadPath : List Ident) (arm : Ident) (ordinal : Int)
    (payload : List (Component Node)) : Node :=
  let inner := Node.ofFields { kind := .literal, loc, type := .custom payloadPath } payload
  let union := Node.ofFields { kind := .literal, loc } [⟨arm, .unknown, inner, loc⟩]
  let discriminant := Node.leaf { kind := .int, loc, integer := ordinal }
  .ofFields { kind := .literal, loc, type := .custom owner }
    [⟨.name "discriminant", .unknown, discriminant, loc⟩, ⟨.name "payload", .unknown, union, loc⟩]

/-- Analyses the arguments of a constructor, the first of which is at place `i`. Beside the
arguments it returns the components of the payload, unless one is rejected. -/
def tuplePayload (below : ExprRule) (path : List Ident) :
    Nat → List Ty → List Node → Analysis (List Node × Option (List (Component Node)))
  | i, type :: types, v :: rest => do
    let (v, ok) ← exprOf below ((← symbols).qualifyAt path type) v
    if ok then
      let (rest, payload) ← tuplePayload below path (i + 1) types rest
      return (v :: rest, payload.map (⟨componentName i, .unknown, v, v.loc⟩ :: ·))
    else return (v :: rest, none)
  | _, _, rest => return (rest, some [])

/-- Is there nothing, or an empty call or literal, after the name of an arm? -/
def carriesNothing : Option Node → Bool
  | none => true
  | some n =>
    (n.kind? == some .call || n.kind? == some .lit) && n.children.isEmpty && n.fields.isEmpty

/-- Analyses what is given to a constructor. Beside the chain it returns the components of the
payload, if they are accepted. -/
def constructorPayload (below : ExprRule) (n : Node) (c : Chain) (payload : Payload) :
    Analysis (Node × Option (List (Component Node))) := do
  match payload, c.tail with
  | .common, tail =>
    if carriesNothing tail then return (n, some [])
    report n.loc (.noConstructor c.path)
    return (n, none)
  | .tuple types, some (.mk h cs fs b) =>
    if h.kind ≠ .call ∨ h.named then
      report n.loc (.noConstructor c.path)
      return (n, none)
    if cs.length ≠ types.length then
      report n.loc (.armArity c.path types.length cs.length)
      return (n, none)
    let (cs, payload) ← tuplePayload below c.path 0 types cs
    return (n.withTail (.mk h cs fs b), payload)
  | .struct fields, some (.mk h cs fs b) =>
    if h.kind ≠ .lit then
      report n.loc (.noConstructor c.path)
      return (n, none)
    let (fs, payload) ← components below fields c.path [] fs
    return (n.withTail (.mk h cs fs b), payload)
  | .unknown, _ =>
    report n.loc (.defect (.unknownArm c.path))
    return (n, none)
  | _, _ =>
    report n.loc (.noConstructor c.path)
    return (n, none)

/-- Does a number fit in 32 bits without a sign, as discriminants have to? -/
def fitsUnsigned32 (value : Int) : Bool := 0 ≤ value && value ≤ 4294967295

/-- Analyses a chain that names an arm of a variant. -/
def construct (below : ExprRule) (n : Node) (c : Chain) (owner : Ident) (payload : Payload)
    (ordinal : Int) : Analysis Typed := do
  let (n, built) ← constructorPayload below n c payload
  match built with
  | none => return (n, none)
  | some built =>
    if !fitsUnsigned32 ordinal then
      report n.loc (.defect (.wideOrdinal c.path))
      return (n, none)
    let arm := c.path.getLastD .missing
    let variant := (← symbols).canonical c.path.dropLast
    let payloadPath := variant.dropLast ++ [payloadStruct owner arm]
    return (encodeArm n.loc variant payloadPath arm ordinal built, some (.custom variant))

end Analysis

end TreeSema
