import TreeSema.Analysis.Constructor
import TreeSema.Text.Decimal

/-!
# Declarations

What the declarations of types, functions and variables put into the symbol table. A name may be
declared only where no open scope has it.
-/
namespace TreeSema.Analysis

/-! ## Records -/

/-- Adds declared fields to some; a repeated name is reported and passed over. -/
def collectFields (fields : Fields) : List FieldDecl → Analysis Fields
  | [] => return fields
  | f :: rest => do
    if fields.contains f.name then
      report f.loc (.redefined f.name)
      collectFields fields rest
    else
      declare f.type f.loc
      collectFields (fields.set f.name f.type) rest

/-- Declares a struct or a union. -/
def record (h : Head) (fs : List (Component Node)) : Analysis Unit := do
  if ← redefined h.name h.loc then return
  let fields ← collectFields .empty (fs.map fun f => ⟨f.name, f.type, f.loc⟩)
  insert (.definition h.name (if h.kind = .unionDef then .unionDef fields else .structDef fields)
    h.loc)

/-! ## Enums -/

/-- Is a number in the range of the values of an enum? -/
def fits32 (value : Int) : Bool := -2147483648 ≤ value && value ≤ 2147483647

/-- Adds values to an enum. A value that is not explicit has the number `next`, which is one more
than that of the value before it, also if that one was rejected. -/
def enumValues (owner : Ident) (next : Int) (d : EnumBody) : List EnumItem → Analysis EnumBody
  | [] => return d
  | v :: rest => do
    let value := if v.explicit then v.value else next
    let next := Text.wrap64 (value + 1)
    if d.values.contains v.name then
      report v.loc (.redefined v.name)
      enumValues owner next d rest
    else if !fits32 value then
      report v.loc (.enumOverflow value [owner, v.name])
      enumValues owner next d rest
    else
      enumValues owner next
        ⟨d.values.set v.name ⟨owner, value, v.loc⟩, d.order ++ [v.name]⟩ rest

def enum (h : Head) : Analysis Unit := do
  if ← redefined h.name h.loc then return
  let d ← enumValues h.name 0 ⟨.empty, []⟩ h.values
  insert (.definition h.name (.enumDef d) h.loc)

/-! ## Variants -/

/-- The fields of the struct that holds a tuple. -/
def tupleFields (types : List Ty) : Fields :=
  .ofList (types.zipIdx.map fun p => (componentName p.2, p.1))

def declareTypes (loc : Location) : List Ty → Analysis Unit
  | [] => return
  | type :: rest => do
    declare type loc
    declareTypes loc rest

/-- What an arm carries, and the fields of the struct that holds it. -/
def armPayload (arm : Arm) : Analysis (Payload × Fields) := do
  match arm.shape with
  | .tuple =>
    declareTypes arm.loc arm.types
    return (.tuple arm.types, tupleFields arm.types)
  | .struct =>
    let fields ← collectFields .empty arm.fields
    return (.struct fields, fields)
  | _ => return (.common, .empty)

/-- Adds arms to a variant, numbered in order. Beside the variant it returns the structs that hold
what the arms carry. -/
def variantArms (owner : Ident) (d : VariantBody) :
    List Arm → Analysis (VariantBody × List SymbolEntry)
  | [] => return (d, [])
  | arm :: rest => do
    if d.arms.contains arm.name then
      report arm.loc (.redefined arm.name)
      variantArms owner d rest
    else
      let (payload, fields) ← armPayload arm
      let member : ArmMember := ⟨owner, payload, d.order.length, arm.loc⟩
      let (d, structs) ←
        variantArms owner ⟨d.arms.set arm.name member, d.order ++ [arm.name]⟩ rest
      return (d, .definition (payloadStruct owner arm.name) (.structDef fields) arm.loc :: structs)

/-- Inserts entries whose names are free. -/
def insertFree : List SymbolEntry → Analysis Unit
  | [] => return
  | e :: rest => do
    unless ← redefined e.name e.loc do insert e
    insertFree rest

def variant (h : Head) : Analysis Unit := do
  if ← redefined h.name h.loc then return
  let (d, structs) ← variantArms h.name ⟨.empty, []⟩ h.arms
  insert (.definition h.name (.variantDef d) h.loc)
  insertFree structs

/-! ## Aliases -/

/-- Declares an alias. A chain of aliases that comes back to its start is reported where it is
closed. -/
def aliasDecl (h : Head) : Analysis Unit := do
  if ← redefined h.name h.loc then return
  insert (.definition h.name (.aliasDef h.type) h.loc)
  declare h.type h.loc
  if (← symbols).aliasLoops (.custom [h.name]) then report h.loc (.selfAlias h.name)

/-! ## Functions -/

/-- The parameters of a function, after those in `done`; a repeated name is reported and passed
over. -/
def formals (done : List Formal) : List Param → Analysis (List Formal)
  | [] => return done
  | p :: rest => do
    if done.any (·.name == p.name) then
      report p.loc (.redefined p.name)
      formals done rest
    else
      let _ ← checkType p.loc p.type
      formals (done ++ [⟨p.name, p.type, p.mutable⟩]) rest

/-- Puts the parameters of a function into its scope. -/
def bindFormals : List (Formal × Location) → Analysis Unit
  | [] => return
  | (p, loc) :: rest => do
    insert (.binding p.name ⟨p.type, p.mutable, .parameter, true⟩ loc)
    bindFormals rest

/-- The attributes of a function. -/
def functionFlags (h : Head) (flags : Attributes) : Attributes :=
  let flags := if h.isUnsafe then flags.union .unsafeFn else flags
  if h.variadic then flags.union .variadicFn else flags

/-- Puts a function into the table; returns its parameters. -/
def declareFunction (h : Head) (flags : Attributes) : Analysis (List Formal) := do
  let _ ← checkType h.loc h.type
  let params ← formals [] h.params
  insert (.definition h.name (.func ⟨params, h.type, flags⟩) h.loc)
  return params

/-- Runs `analyse` over the statements of the body of a function, in a scope of their own. -/
def functionBody (h : Head) (params : List Formal) (b : Node)
    (analyse : List Node → Analysis (List Node)) : Analysis Node := do
  let safety := if h.isUnsafe then .unsafely else .inherited
  inScope { safety, inFunction := true } do
    bindFormals (params.zip (h.params.map (·.loc)))
    return b.withChildren (← returning h.type (analyse b.children))

/-- Declares a function and runs `analyse` over the statements of its body, if it has one. The
function is there before its body, which may call it. -/
def function (h : Head) (flags : Attributes) (b : Node)
    (analyse : List Node → Analysis (List Node)) : Analysis Node := do
  if ← redefined h.name h.loc then return b
  let flags := functionFlags h flags
  let params ← declareFunction h flags
  if b.isAbsent then return b
  if flags.has .foreignFn then
    report h.loc (.externBody h.name)
    return b
  functionBody h params b analyse

/-! ## Variables -/

/-- Puts a variable that is defined elsewhere into the table. -/
def bindForeign (h : Head) : Analysis Unit := do
  if h.type.isUnknown then report h.loc (.needsType h.name)
  else
    let _ ← checkType h.loc h.type
    insert (.binding h.name ⟨h.type, h.mutable, .foreign, true⟩ h.loc)

/-- Declares a variable that is defined elsewhere, and so has no initializer. -/
def foreignVariable (h : Head) (cs : List Node) : Analysis Unit := do
  if ← redefined h.name h.loc then return
  unless cs.isEmpty do report h.loc (.externInit h.name)
  bindForeign h

/-- Declares a variable, whose initializer is the first of `cs`. A variable with a declared type is
there before its initializer, without a value, so that an initializer that reads it is found out. A
static variable has a value from the start. -/
def variableDecl (below : ExprRule) (h : Head) (storage : Storage) (cs : List Node) :
    Analysis (List Node) := do
  if ← redefined h.name h.loc then return cs
  let v : Variable := ⟨h.type, h.mutable && storage != .constant, storage, true⟩
  if h.type.isUnknown then
    match cs with
    | [] =>
      report h.loc (.needsType h.name)
      return []
    | init :: rest =>
      let (init, type) ← below init .unknown
      if let some type := type then insert (.binding h.name { v with type } h.loc)
      return init :: rest
  else
    let _ ← checkType h.loc h.type
    insert (.binding h.name { v with initialized := storage == .static } h.loc)
    match cs with
    | [] => return []
    | init :: rest =>
      let (init, _) ← exprOf below h.type init
      insert (.binding h.name v h.loc)
      return init :: rest

end TreeSema.Analysis
