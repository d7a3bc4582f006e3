import TreeSema.Analysis.Below
import TreeSema.Analysis.Chain
import TreeSema.Analysis.Record

/-!
# Places

A place is what an assignment can write to: a variable, or a field, element or pointee reached from
one. Whether it may be written is decided by the last layer that was crossed: the variable itself,
a reference or a pointer.
-/
namespace TreeSema

structure Place where
  /-- The variable or reference that the place is reached from. -/
  root : Ident
  type : Ty
  writable : Bool
  /-- Was `writable` decided by a reference? -/
  viaRef : Bool := false
  deriving DecidableEq, Repr

namespace Symbols

def throughIn (t : Symbols) : Nat → Place → Place
  | 0, p => p
  | fuel + 1, p =>
    match t.underlying p.type with
    | .ref target mutable =>
      throughIn t fuel { p with type := target, writable := mutable, viaRef := true }
    | .ptr target =>
      throughIn t fuel { p with type := target, writable := true, viaRef := false }
    | _ => p

/-- Crosses the references and pointers that a field access crosses. -/
def through (t : Symbols) (p : Place) : Place := t.throughIn (t.reach p.type) p

/-- The place of a variable. -/
def variablePlace? (t : Symbols) (name : Ident) : Option Place :=
  match t.lookup name with
  | some ⟨_, _, .var v, _⟩ => some ⟨name, v.type, v.mutable, false⟩
  | _ => none

/-- The place that a name, a field or an element denotes, if it is one. -/
def place? (t : Symbols) : Node → Option Place
  | .absent => none
  | .mk h cs _ _ =>
    match h.kind with
    | .ident => t.variablePlace? h.name
    | .dot =>
      match cs with
      | left :: .mk right _ _ _ :: _ =>
        match place? t left with
        | none => none
        | some p =>
          if right.kind = .ident then do
            let p := t.through p
            let r ← t.record? p.type
            let field ← r.fields.get? right.name
            some { p with type := t.qualifyAt r.path field }
          else none
      | _ => none
    | .index =>
      match cs with
      | base :: _ =>
        match place? t base with
        | none => none
        | some p =>
          match t.underlying p.type with
          | .array _ elem => some { p with type := elem }
          | .ptr target => some { p with type := target, writable := true, viaRef := false }
          | _ => none
      | [] => none
    | _ => none

/-- The variable that an expression borrows from although it may not be written. -/
def immutableRoot? (t : Symbols) (n : Node) : Option Ident :=
  match t.place? n with
  | some p => if p.writable then none else some p.root
  | none => none

end Symbols

namespace Analysis

/-- The place of the field that `right` names in the place `left`. -/
def memberPlace (loc : Location) (left : Node) (leftPlace : Analysis (Node × Option Place))
    (right : Node) : Analysis (Node × Option Place) := do
  match right with
  | .absent =>
    report loc .assignTarget
    return (left, none)
  | .mk r _ _ _ =>
    if r.kind = .ident then
      let (left, p) ← leftPlace
      let some p := p | return (left, none)
      let p := (← symbols).through p
      let some field ← fieldType p.type r.name r.loc | return (left, none)
      return (left, some { p with type := field })
    else
      report loc .assignTarget
      return (left, none)

/-- The place that an entry found by a path stands for. -/
def entryPlace (loc : Location) (path : List Ident) (e : Option SymbolEntry) :
    Analysis (Option Place) := do
  match e with
  | none =>
    report loc (.notFound path)
    return none
  | some e =>
    match e.kind with
    | .var v => return some ⟨path.getLastD .missing, v.type, v.mutable, false⟩
    | kind =>
      report loc (.unexpectedKind .assignable kind.name path)
      return none

/-- The place of the elements of a place. What a pointer leads to may be written. -/
def elementsPlace (loc : Location) (p : Place) : Analysis (Option Place) := do
  match (← symbols).underlying p.type with
  | .ptr target => return some { p with type := target, writable := true, viaRef := false }
  | _ => return (← elementType p.type loc).map fun elem => { p with type := elem }

/-- The element that `index` picks from a place. -/
def elementPlace (below : ExprRule) (loc : Location) (p : Place) (index : Node) :
    Analysis (Node × Option Place) := do
  match ← elementsPlace loc p with
  | none => return (index, none)
  | some element =>
    let (index, ok) ← indexExpr below index
    return (index, if ok then some element else none)

/-- The place that a value of some type points to. -/
def pointeePlace (loc : Location) (root : Ident) (type : Ty) : Analysis (Option Place) := do
  let t ← symbols
  match t.underlying type with
  | .ref target mutable => return some ⟨root, target, mutable, true⟩
  | .ptr target => return some ⟨root, target, true, false⟩
  | _ =>
    report loc (.notReference (t.shown type))
    return none

/-- Analyses the target of an assignment. -/
def place (below : ExprRule) : Node → Analysis (Node × Option Place)
  | .absent => do
    report {} .assignTarget
    return (.absent, none)
  | .mk h cs fs b =>
    match h.kind with
    | .ident => do
      let p ← entryPlace h.loc [h.name] ((← symbols).lookup h.name)
      return (.mk h cs fs b, p)
    | .path => do
      match Node.chain? (.mk h cs fs b) with
      | some ⟨path, none⟩ =>
        let p ← entryPlace h.loc path ((← symbols).resolve path)
        return (.mk h cs fs b, p)
      | _ =>
        report h.loc .assignTarget
        return (.mk h cs fs b, none)
    | .dot =>
      match cs with
      | left :: right :: rest => do
        let (left, p) ← memberPlace h.loc left (place below left) right
        return (.mk h (left :: right :: rest) fs b, p)
      | cs => around h fs b (missingOperand h.loc cs none)
    | .index =>
      match cs with
      | base :: index :: rest => do
        let (base, p) ← place below base
        match p with
        | none => return (.mk h (base :: index :: rest) fs b, none)
        | some p =>
          let (index, p) ← elementPlace below h.loc p index
          return (.mk h (base :: index :: rest) fs b, p)
      | cs => around h fs b (missingOperand h.loc cs none)
    | .deref =>
      match cs with
      | operand :: rest => do
        let (operand, type) ← below operand .unknown
        match type with
        | none => return (.mk h (operand :: rest) fs b, none)
        | some type =>
          let p ← pointeePlace h.loc operand.origin type
          return (.mk h (operand :: rest) fs b, p)
      | cs => around h fs b (missingOperand h.loc cs none)
    | _ => do
      report h.loc .assignTarget
      return (.mk h cs fs b, none)

end Analysis

end TreeSema
