import TreeSema.Proofs.Course.Visits
import TreeSema.Proofs.Lowered

/-!
# Where unsafe operations may stand

Unsafe operations are calls of functions that are declared so, literals of unions and accesses to
fields of unions. They are allowed in the text of an unsafe block or an unsafe function, and a module
starts anew. The rules here say so about the tree alone: they go down a tree with a flag `inside`,
which tells whether the text around allows unsafe operations. All they take from analysis are the
tables in which names are looked up at each statement; the scopes of these tables, and what safety
they have, play no part.

* `Symbols.HasType`: the type of an expression that can lead to a record.
* `Symbols.Confines`: the unsafe operations in an expression, if there are any, are allowed.
* `ConfinedStmt`, `ConfinedBody`: so are those in a statement and in a list of statements.
-/
namespace TreeSema

/-- How an expression is used: its value is read, or an assignment writes to it or to a part of
it. -/
inductive Use where
  | read
  | write
  deriving DecidableEq

/-- Is it unsafe to make something of such an entry, by a call or a literal? -/
def EntryKind.isUnsafe {M : Type} : EntryKind M → Bool
  | .func sig => sig.flags.has .unsafeFn
  | .unionDef _ => true
  | _ => false

/-- Is a node made of the values of its operands alone? -/
def Kind.isOperation : Kind → Bool
  | .binary | .unary | .ref | .deref | .tuple | .array | .index | .cast => true
  | _ => false

namespace Symbols

variable (t : Symbols)

/-- Does a node select a field of a value? Where it is read, it can be part of a qualified name
instead. -/
def SelectsField (use : Use) (n : Node) : Prop :=
  n.kind? = some .dot ∧ (use = .write ∨ t.startsAtValue n = true)

/-- The type of what a path stands for that leads to no variable: the result of a call, or what a
literal, a constructor or an enum value belongs to. -/
def madeType? (path : List Ident) : EntryKind ModuleBody → Option Ty
  | .func sig => some (t.qualifyAt path sig.result)
  | .structDef _ | .unionDef _ => some (.custom (t.canonical path))
  | .enumValue .. | .variantArm .. => some (.custom (t.canonical path.dropLast))
  | _ => none

/-- The type of an expression of which nothing is expected, as one that a field is selected from.
The expressions that there is no rule for are operations on numbers and truth values, constants,
tuples and assignments, none of which has a record as its value or leads to one. -/
inductive HasType : Use → Node → Ty → Prop
  | variable {use} {n : Node} {path} {e : SymbolEntry} {v : Variable}
      (hfield : ¬ t.SelectsField use n) (hchain : n.chain? = some ⟨path, none⟩)
      (he : t.resolve path = some e) (hv : e.kind = .var v) : HasType use n v.type
  | made {n : Node} {tail path} {e : SymbolEntry} {type}
      (hfield : ¬ t.SelectsField .read n) (hchain : n.chain? = some ⟨path, tail⟩)
      (he : t.resolve path = some e) (htype : t.madeType? path e.kind = some type) :
    HasType .read n type
  | field {use} {h r : Head} {left rcs rest rfs fs rb b type ty} {rec : Record}
      (hfield : t.SelectsField use (.mk h (left :: .mk r rcs rfs rb :: rest) fs b))
      (hname : r.kind = .ident) (hleft : HasType use left type)
      (hrec : t.record? (t.pointee type) = some rec) (hty : rec.fields.get? r.name = some ty) :
    HasType use (.mk h (left :: .mk r rcs rfs rb :: rest) fs b) (t.qualifyAt rec.path ty)
  | element {use} {h : Head} {base rest fs b type elem}
      (hkind : h.kind = .index) (hbase : HasType use base type)
      (helem : (∃ size, t.underlying type = .array size elem) ∨ t.underlying type = .ptr elem) :
    HasType use (.mk h (base :: rest) fs b) elem
  | target {use} {h : Head} {operand rest fs b type target}
      (hkind : h.kind = .deref) (hoperand : HasType .read operand type)
      (htarget : (∃ m, t.underlying type = .ref target m) ∨ t.underlying type = .ptr target) :
    HasType use (.mk h (operand :: rest) fs b) target
  | borrow {h : Head} {operand rest fs b type}
      (hkind : h.kind = .ref) (hoperand : HasType .read operand type) :
    HasType .read (.mk h (operand :: rest) fs b) (.ref type h.mutable)
  | cast {h : Head} {cs fs b} (hkind : h.kind = .cast) : HasType .read (.mk h cs fs b) h.type
  /-- The first element that has a type gives it to the array. -/
  | array {h : Head} {elem untyped rest fs b} {type : Ty}
      (hkind : h.kind = .array) (huntyped : ∀ c ∈ untyped, HasType .read c .unknown)
      (helem : HasType .read elem type) (hknown : type.isUnknown = false) :
    HasType .read (.mk h (untyped ++ elem :: rest) fs b)
      (.array (untyped ++ elem :: rest).length type)

/-- Does a name stand for a field of a union, in the value of an expression or behind references and
pointers to it? -/
def UnionField (use : Use) (n : Node) (name : Ident) : Prop :=
  ∃ type rec, t.HasType use n type ∧ t.record? (t.pointee type) = some rec ∧ rec.union = true ∧
    (rec.fields.get? name).isSome = true

/-- Does a path lead to something that it is unsafe to call or to make a literal of? -/
def NamesUnsafe (path : List Ident) : Prop :=
  ∃ e, t.resolve path = some e ∧ e.kind.isUnsafe = true

/-- Every unsafe operation in an expression is one that the text around it allows. There is a rule
for each form of expression, which asks the same of all its operands. -/
inductive Confines (inside : Bool) : Use → Node → Prop
  | constant {h : Head} (hkind : h.kind = .int ∨ h.kind = .float ∨ h.kind = .str ∨ h.kind = .bool) :
    Confines inside .read (.mk h [] [] .absent)
  | names {use} {n : Node} {path} (hfield : ¬ t.SelectsField use n)
      (hchain : n.chain? = some ⟨path, none⟩) : Confines inside use n
  /-- A call, a literal or an assignment to a name, with a path in front of it. -/
  | chain {n tail : Node} {path} (hfield : ¬ t.SelectsField .read n)
      (hchain : n.chain? = some ⟨path, some tail⟩) (hsafe : t.NamesUnsafe path → inside = true)
      (hcs : ∀ c ∈ tail.children, Confines inside .read c)
      (hfs : ∀ f ∈ tail.fields, Confines inside .read f.value) : Confines inside .read n
  | field {use} {h r : Head} {left}
      (hfield : t.SelectsField use (.mk h [left, .mk r [] [] .absent] [] .absent))
      (hname : r.kind = .ident) (hsafe : t.UnionField use left r.name → inside = true)
      (hleft : Confines inside use left) :
    Confines inside use (.mk h [left, .mk r [] [] .absent] [] .absent)
  /-- A field with an assignment to it, which is written as a part of the access. -/
  | assignedField {h r target : Head} {left value} (hfield : t.SelectsField .read
        (.mk h [left, .mk r [.mk target [] [] .absent, value] [] .absent] [] .absent))
      (hassign : r.kind = .assign) (hname : target.kind = .ident)
      (hsafe : t.UnionField .write left target.name → inside = true)
      (hleft : Confines inside .write left) (hvalue : Confines inside .read value) :
    Confines inside .read
      (.mk h [left, .mk r [.mk target [] [] .absent, value] [] .absent] [] .absent)
  | operation {h : Head} {cs} (hkind : h.kind.isOperation = true)
      (hcs : ∀ c ∈ cs, Confines inside .read c) : Confines inside .read (.mk h cs [] .absent)
  | element {h : Head} {base idx} (hkind : h.kind = .index)
      (hbase : Confines inside .write base) (hidx : Confines inside .read idx) :
    Confines inside .write (.mk h [base, idx] [] .absent)
  | target {h : Head} {operand} (hkind : h.kind = .deref)
      (hoperand : Confines inside .read operand) :
    Confines inside .write (.mk h [operand] [] .absent)
  | assignment {h : Head} {target value} (hkind : h.kind = .assign)
      (htarget : Confines inside .write target) (hvalue : Confines inside .read value) :
    Confines inside .read (.mk h [target, value] [] .absent)

end Symbols

/-! ## Statements -/

/-- Is a node of this kind a declaration or a jump that holds no expression? -/
def Kind.isPlain : Kind → Bool
  | .structDef | .unionDef | .enumDef | .variantDef | .aliasDef | .breakLoop | .continueLoop => true
  | _ => false

namespace Analysis

/-- The table in which the initializer of a variable is analysed. A variable whose type is written is
there already. -/
def initTable (h : Head) (storage : Storage) (t : Symbols) : Symbols :=
  if h.type.isUnknown then t
  else t.insert (.binding h.name
    ⟨h.type, h.mutable && storage != .constant, storage, storage == .static⟩ h.loc)

variable (cfg : Config)

mutual

/-- Every unsafe operation in a statement is one that the text around it allows, where the statement
is come to in the given state, with so many levels left. -/
inductive ConfinedStmt : (levels : Nat) → (inside : Bool) → State → Node → Prop
  /-- Whatever the text around a module allows, nothing unsafe is allowed in it. -/
  | module {k inside s} {h : Head} {cs}
      (hkind : h.kind = .moduleDef) (hbody : ConfinedBody k false {} cs) :
    ConfinedStmt (k + 1) inside s (.mk h cs [] .absent)
  | function {k inside s} {h : Head} {b : Node} (hkind : h.kind = .funcDef)
      (hbody : ConfinedBody k (inside || h.isUnsafe) (functionStart h s) b.children) :
    ConfinedStmt (k + 1) inside s (.mk h [] [] b)
  | block {k inside} {s : State} {h : Head} {cs} (hkind : h.kind = .block)
      (hbody : ConfinedBody k inside
        { s with table := s.table.enter { s.table.context with safety := .inherited } } cs) :
    ConfinedStmt (k + 1) inside s (.mk h cs [] .absent)
  | unsafeBlock {k inside} {s : State} {h : Head} {cs} (hkind : h.kind = .unsafeBlock)
      (hbody : ConfinedBody k true
        { s with table := s.table.enter { s.table.context with safety := .unsafely } } cs) :
    ConfinedStmt (k + 1) inside s (.mk h cs [] .absent)
  | conditional {k inside} {s : State} {h : Head} {condition rest} (hkind : h.kind = .ifThen)
      (hcondition : s.table.Confines inside .read condition)
      (hrest : ConfinedBranches k inside
        (exprOf (exprAt cfg k) (.basic .bool) condition s).2 rest) :
    ConfinedStmt (k + 1) inside s (.mk h (condition :: rest) [] .absent)
  | whileLoop {k inside} {s s₁ : State} {h : Head} {condition n}
      (hkind : h.kind = .whileLoop) (hcondition : s.table.Confines inside .read condition)
      (hs₁ : s₁ = (exprOf (exprAt cfg k) (.basic .bool) condition s).2)
      (hbody : ConfinedBody k inside { s₁ with table := s₁.table.enter (loopContext s₁) }
        (loopNodes n)) :
    ConfinedStmt (k + 1) inside s (.mk h [condition, n] [] .absent)
  | loop {k inside} {s : State} {h : Head} {n} (hkind : h.kind = .loop)
      (hbody : ConfinedBody k inside { s with table := s.table.enter (loopContext s) }
        (loopNodes n)) :
    ConfinedStmt (k + 1) inside s (.mk h [n] [] .absent)
  | variable {k inside} {s : State} {h : Head} {storage cs}
      (hkind : declarationKind storage = some h.kind)
      (hcs : ∀ c ∈ cs, (initTable h storage s.table).Confines inside .read c) :
    ConfinedStmt (k + 1) inside s (.mk h cs [] .absent)
  | returned {k inside} {s : State} {h : Head} {cs}
      (hkind : h.kind = .returnValue) (hcs : ∀ c ∈ cs, s.table.Confines inside .read c) :
    ConfinedStmt (k + 1) inside s (.mk h cs [] .absent)
  | foreign {k inside s} {h : Head} {cs}
      (hkind : h.kind = .externBlock) (hitems : ∀ c ∈ cs, ForeignItem c) :
    ConfinedStmt (k + 1) inside s (.mk h cs [] .absent)
  | plain {k inside s} {h : Head} {fs}
      (hkind : h.kind.isPlain = true) (hfs : ∀ f ∈ fs, f.value = .absent) :
    ConfinedStmt (k + 1) inside s (.mk h [] fs .absent)
  | expression {k inside} {s : State} {n}
      (hn : s.table.Confines inside .read n) : ConfinedStmt (k + 1) inside s n

/-- The statements of a body, each in the state that those before it leave. -/
inductive ConfinedBody : (levels : Nat) → (inside : Bool) → State → List Node → Prop
  | nil {k inside s} : ConfinedBody k inside s []
  | cons {k inside s n rest} (hn : ConfinedStmt k inside s n)
      (hrest : ConfinedBody k inside (stmtAt cfg .written k none n s).2 rest) :
    ConfinedBody k inside s (n :: rest)

/-- The branches of a conditional, in which a block has no scope of its own. -/
inductive ConfinedBranches : (levels : Nat) → (inside : Bool) → State → List Node → Prop
  | nil {k inside s} : ConfinedBranches k inside s []
  | block {k inside s} {n : Node} {rest}
      (hkind : n.kind? = some .block) (hbody : ConfinedBody k inside s n.children)
      (hrest : ConfinedBranches k inside (branch cfg (belowAt cfg .written k) n s).2 rest) :
    ConfinedBranches k inside s (n :: rest)
  | single {k inside s} {n : Node} {rest}
      (hkind : n.kind? ≠ some .block) (hn : ConfinedStmt k inside s n)
      (hrest : ConfinedBranches k inside (branch cfg (belowAt cfg .written k) n s).2 rest) :
    ConfinedBranches k inside s (n :: rest)

end

end Analysis

end TreeSema
