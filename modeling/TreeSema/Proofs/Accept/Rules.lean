import TreeSema.Proofs.Accept.Run

/-!
# Rules of acceptance

The rules by which an expression is accepted, as relations between the expression, the node that is
made of it and the states before and after. They are stated over a judgement about the expressions
below, in the way the rules of analysis are, and leave out all that leads to an error.

* `Accepts`: an expression is accepted where a type is expected.
* `Access`: a call, a literal or a chain is accepted: a chain is a member or a variable, or it is
  replaced by what it means.
* `Performs`: a statement is accepted.
* `PlaceOf`: the target of an assignment is accepted as a place.
* `EntryKind.LowersTo`: what takes the place of a chain, by what the chain names.
-/
namespace TreeSema

/-- The kind of node that stands for a chain that names an entry. -/
inductive EntryKind.LowersTo {M : Type} : EntryKind M → Kind → Prop
  | enumValue {owner value} : LowersTo (.enumValue owner value) .int
  | variantArm {owner payload ordinal} :
    LowersTo (.variantArm owner payload ordinal) .literal
  | structDef {fields} : LowersTo (.structDef fields) .literal
  | unionDef {fields} : LowersTo (.unionDef fields) .literal
  | func {sig} : LowersTo (.func sig) .typedCall

/-- Has a kind of node rules of its own as a statement? -/
def Kind.isStatement : Kind → Bool
  | .program | .moduleDef | .structDef | .unionDef | .enumDef | .variantDef | .funcDef
  | .externBlock | .varDef | .staticDef | .constDef | .aliasDef | .block | .unsafeBlock | .ifThen
  | .whileLoop | .loop | .breakLoop | .continueLoop | .returnValue | .assign => true
  | _ => false

/-- Is a node an access to a member of a value? -/
def Symbols.IsMember (t : Symbols) (n : Node) : Prop :=
  n.kind? = some .dot ∧ t.startsAtValue n = true

namespace Analysis

/-- What is accepted of expressions: from a state, an expression where a type is expected becomes a
node of a type, and a state is left. -/
abbrev Judgement := State → Node → Ty → Node → Ty → State → Prop

/-- What an analysis of expressions accepts. -/
def ExprRule.Gives (rule : ExprRule) : Judgement :=
  fun s n expected n' type s' => CleanRun (rule n expected) s (n', some type) s'

/-- A state with further warnings. -/
def State.Warned (s s' : State) : Prop :=
  ∃ fs : List Finding, (∀ f ∈ fs, f.cause.severity ≠ .error) ∧
    s' = { s with findings := s.findings ++ fs }

section Operands

variable (B : Judgement)

/-- An expression that has to have a type. -/
def OfType (type : Ty) (s : State) (n n' : Node) (s' : State) : Prop :=
  ∃ actual, B s n type n' actual s' ∧ s'.table.compatible type actual = true

/-- An expression that has to be an index. -/
def AsIndex (s : State) (n n' : Node) (s' : State) : Prop :=
  ∃ actual, B s n (.basic .usize) n' actual s' ∧ (s'.table.underlying actual).isInteger = true

/-- Expressions that have to be truth values. -/
inductive Conditions : State → List Node → List Node → State → Prop
  | nil {s} : Conditions s [] [] s
  | cons {s s₁ s₂ n n' rest rest'}
      (hn : OfType B (.basic .bool) s n n' s₁) (hrest : Conditions s₁ rest rest' s₂) :
    Conditions s (n :: rest) (n' :: rest') s₂

/-- Two operands, the second of which has to have the type of the first. -/
def Agreeing (s : State) (first second : Node) (expected : Ty) (first' second' : Node) (type : Ty)
    (s' : State) : Prop :=
  ∃ s₁ other, B s first expected first' type s₁ ∧ B s₁ second type second' other s' ∧
    s'.table.compatible type other = true

/-- The operands of an operator. -/
def OperandPair (s : State) (left right : Node) (expected : Ty) (left' right' : Node) (type : Ty)
    (s' : State) : Prop :=
  if left.isOpenLiteral && !right.isOpenLiteral then
    Agreeing B s right left expected right' left' type s'
  else Agreeing B s left right expected left' right' type s'

/-- The elements of a tuple. -/
inductive TupleElems : State → List Ty → List Node → List Node → List Ty → State → Prop
  | nil {s hints} : TupleElems s hints [] [] [] s
  | cons {s s₁ s₂} {hints types : List Ty} {n n' rest rest' type}
      (hn : B s n (hints.headD .unknown) n' type s₁)
      (hrest : TupleElems s₁ hints.tail rest rest' types s₂) :
    TupleElems s hints (n :: rest) (n' :: rest') (type :: types) s₂

/-- The elements of an array; the first gives the others their type if that is unknown. -/
inductive ArrayElems : State → Ty → List Node → List Node → Ty → State → Prop
  | nil {s elem} : ArrayElems s elem [] [] elem s
  | cons {s s₁ s₂ : State} {elem elem' type : Ty} {n n' rest rest'} (hn : B s n elem n' type s₁)
      (hfits : elem.isUnknown = false → s₁.table.compatible elem type = true)
      (hrest : ArrayElems s₁ (if elem.isUnknown then type else elem) rest rest' elem' s₂) :
    ArrayElems s elem (n :: rest) (n' :: rest') elem' s₂

/-- The target of an assignment. -/
inductive PlaceOf : State → Node → Node → Place → State → Prop
  | name {s : State} {h : Head} {cs fs b} {e : SymbolEntry} {v : Variable} (hkind : h.kind = .ident)
      (he : s.table.lookup h.name = some e) (hv : e.kind = .var v) :
    PlaceOf s (.mk h cs fs b) (.mk h cs fs b) ⟨h.name, v.type, v.mutable, false⟩ s
  | path {s : State} {h : Head} {cs fs b} {names : List Ident} {e : SymbolEntry} {v : Variable}
      (hkind : h.kind = .path)
      (hchain : Node.chain? (.mk h cs fs b) = some ⟨names, none⟩)
      (he : s.table.resolve names = some e) (hv : e.kind = .var v) :
    PlaceOf s (.mk h cs fs b) (.mk h cs fs b) ⟨names.getLastD .missing, v.type, v.mutable, false⟩ s
  | member {s s₁ s₂ : State} {h r : Head} {left left' rcs rest rfs fs rb b p field}
      (hkind : h.kind = .dot) (hname : r.kind = .ident) (hleft : PlaceOf s left left' p s₁)
      (hfield : CleanRun (fieldType (s₁.table.through p).type r.name r.loc) s₁ (some field) s₂) :
    PlaceOf s (.mk h (left :: .mk r rcs rfs rb :: rest) fs b)
      (.mk h (left' :: .mk r rcs rfs rb :: rest) fs b)
      { s₁.table.through p with type := field } s₂
  | element {s s₁ s₂ s₃} {h : Head} {base base' idx idx' rest fs b p q} (hkind : h.kind = .index)
      (hbase : PlaceOf s base base' p s₁) (hq : CleanRun (elementsPlace h.loc p) s₁ (some q) s₂)
      (hidx : AsIndex B s₂ idx idx' s₃) :
    PlaceOf s (.mk h (base :: idx :: rest) fs b) (.mk h (base' :: idx' :: rest) fs b) q s₃
  | pointee {s s₁ s₂} {h : Head} {operand operand' : Node} {rest fs b type p}
      (hkind : h.kind = .deref)
      (hoperand : B s operand .unknown operand' type s₁)
      (hp : CleanRun (pointeePlace h.loc operand'.origin type) s₁ (some p) s₂) :
    PlaceOf s (.mk h (operand :: rest) fs b) (.mk h (operand' :: rest) fs b) p s₂

/-- A value that is assigned where a type is stored. -/
def Stored (h : Head) (type : Ty) (s : State) (value value' : Node) (s' : State) : Prop :=
  (h.op = "=" ∨ (s.table.underlying type).isNumeric = true) ∧ OfType B type s value value' s'

/-- An assignment to a variable, which has a value from then on. -/
def AssignsName (h target : Head) (s : State) (value value' : Node) (s' : State) : Prop :=
  ∃ e v type s₁ s₂, s.table.lookup target.name = some e ∧ e.kind = .var v ∧
    s.table.assignable h.op target.name v = .ok type ∧ s.Warned s₁ ∧
    Stored B h type s₁ value value' s₂ ∧
    s' = { s₂ with table := s₂.table.modify target.name .withValue }

/-- An operand of a call or literal: it was accepted in a state that differs from `s` by marks. -/
def Operand (s : State) (n n' : Node) : Prop :=
  ∃ s₁ expected type s₂, s.Marks s₁ ∧ B s₁ n expected n' type s₂

/-- A node of a kind and a type takes the place of a chain at `loc`, given the call or literal that
ends the chain. -/
structure Replaces (s : State) (tail : Option Node) (loc : Location) (k : Kind) (n : Node)
    (ty : Ty) : Prop where
  kind : n.kind? = some k
  type : n.head.type = ty
  known : k = .int → ty.isUnknown = false
  new : Replacement (List.Forall₂ (Operand B s)) (List.Forall₂ (Component.Lift (Operand B s)))
    (fun given args => ∀ x ∈ args, ∃ f ∈ given, f.value = x) tail loc n

end Operands

section Expressions

variable (B : Judgement)

/-- The operands of an operator or of a tuple, an array, an index or a cast, with the type of the
node around them. -/
inductive Operation (h : Head) (expected : Ty) :
    State → List Node → List Node → Ty → State → Prop
  | logical {s s' left right rest cs'} (hkind : h.kind = .binary)
      (hop : isLogical h.op = true) (hcs : Conditions B s (left :: right :: rest) cs' s') :
    Operation h expected s (left :: right :: rest) cs' (.basic .bool) s'
  | binary {s s₁ s' left right left' right' rest type result}
      (hkind : h.kind = .binary) (hop : isLogical h.op = false)
      (hpair : OperandPair B s left right
        (if isEquality h.op || isOrder h.op then .unknown else expected) left' right' type s₁)
      (hresult : CleanRun (binaryType h type) s₁ (some result) s') :
    Operation h expected s (left :: right :: rest) (left' :: right' :: rest) result s'
  | unary {s s' : State} {operand operand' rest type}
      (hkind : h.kind = .unary) (hoperand : B s operand expected operand' type s')
      (happlies : unaryApplies h.op (s'.table.underlying type) = true) :
    Operation h expected s (operand :: rest) (operand' :: rest) type s'
  | borrow {s s' : State} {operand operand' rest type} (hkind : h.kind = .ref)
      (hoperand : B s operand (borrowedType s.table expected) operand' type s')
      (hmutable : h.mutable = true → s'.table.immutableRoot? operand' = none) :
    Operation h expected s (operand :: rest) (operand' :: rest) (.ref type h.mutable) s'
  | deref {s s' : State} {operand operand' rest type target}
      (hkind : h.kind = .deref) (hoperand : B s operand .unknown operand' type s')
      (htarget : (∃ m, s'.table.underlying type = .ref target m) ∨
        s'.table.underlying type = .ptr target) :
    Operation h expected s (operand :: rest) (operand' :: rest) target s'
  | unit {s} (hkind : h.kind = .tuple) : Operation h expected s [] [] .unit s
  | tuple {s s' : State} {cs cs' : List Node} {types} (hkind : h.kind = .tuple)
      (hsome : cs ≠ [])
      (hcs : TupleElems B s (tupleHints s.table expected cs.length) cs cs' types s') :
    Operation h expected s cs cs' (.tuple types) s'
  | array {s s' : State} {cs cs' : List Node} {elem} (hkind : h.kind = .array)
      (hknown : (cs.isEmpty && (elementHint s.table expected).isUnknown) = false)
      (hcs : ArrayElems B s (elementHint s.table expected) cs cs' elem s') :
    Operation h expected s cs cs' (.array cs'.length elem) s'
  | index {s s₁ s₂ s' base base' idx idx' rest type elem}
      (hkind : h.kind = .index) (hbase : B s base .unknown base' type s₁)
      (helem : CleanRun (elementType type h.loc) s₁ (some elem) s₂)
      (hidx : AsIndex B s₂ idx idx' s') :
    Operation h expected s (base :: idx :: rest) (base' :: idx' :: rest) elem s'
  | cast {s s₁ s' operand operand' rest type}
      (hkind : h.kind = .cast) (hoperand : B s operand .unknown operand' type s₁)
      (htype : CleanRun (checkType h.loc h.type) s₁ true s') :
    Operation h expected s (operand :: rest) (operand' :: rest) h.type s'

/-- The operands of an assignment. -/
inductive Assignment (h : Head) : State → List Node → List Node → State → Prop
  | name {s s'} {target : Head} {tcs rest tfs tb value value'} (hname : target.kind = .ident)
      (hvalue : AssignsName B h target s value value' s') :
    Assignment h s (.mk target tcs tfs tb :: value :: rest)
      (.mk target tcs tfs tb :: value' :: rest) s'
  | place {s s₁ s'} {target target' value value' : Node} {rest} {p : Place}
      (hname : target.kind? ≠ some .ident) (htarget : PlaceOf B s target target' p s₁)
      (hwritable : p.writable = true) (hvalue : Stored B h p.type s₁ value value' s') :
    Assignment h s (target :: value :: rest) (target' :: value' :: rest) s'

/-- A call, a literal or an access chain. -/
inductive Access : State → Node → Node → Ty → State → Prop
  /-- A field of a value is read. -/
  | member {s s₁ s' : State} {h r : Head} {left left' rcs rest rfs fs rb b type field}
      (hmember : s.table.IsMember (.mk h (left :: .mk r rcs rfs rb :: rest) fs b))
      (hname : r.kind = .ident) (hleft : B s left .unknown left' type s₁)
      (hfield : CleanRun (fieldType type r.name r.loc) s₁ (some field) s') :
    Access s (.mk h (left :: .mk r rcs rfs rb :: rest) fs b)
      (.mk h (left' :: .mk r rcs rfs rb :: rest) fs b) field s'
  /-- A field of a value is written. -/
  | writeMember {s s₁ s₂ s' : State} {h r target : Head}
      {left left' value value' tcs more rest tfs rfs fs tb rb b p field} (hmember : s.table.IsMember
        (.mk h (left :: .mk r (.mk target tcs tfs tb :: value :: more) rfs rb :: rest) fs b))
      (hassign : r.kind = .assign) (hname : target.kind = .ident)
      (hleft : PlaceOf B s left left' p s₁)
      (hfield : CleanRun (fieldType (s₁.table.through p).type target.name target.loc) s₁
        (some field) s₂)
      (hwritable : (s₁.table.through p).writable = true)
      (hvalue : Stored B r field s₂ value value' s') :
    Access s (.mk h (left :: .mk r (.mk target tcs tfs tb :: value :: more) rfs rb :: rest) fs b)
      (.mk h (left' :: .mk r (.mk target tcs tfs tb :: value' :: more) rfs rb :: rest) fs b)
      .unit s'
  /-- A variable of a module is read. -/
  | variable {s s' : State} {n : Node} {path} {e : SymbolEntry} {v type}
      (hmember : ¬ s.table.IsMember n) (hchain : n.chain? = some ⟨path, none⟩)
      (he : s.table.resolve path = some e) (hv : e.kind = .var v)
      (hread : CleanRun (readEntry n.loc path e) s (some type) s') :
    Access s n n type s'
  /-- A variable of a module is written. -/
  | writeVariable {s s' : State} {n : Node} {path} {h : Head} {target value value' more fs b}
      {e : SymbolEntry} {v : Variable} (hmember : ¬ s.table.IsMember n)
      (hchain : n.chain? = some ⟨path, some (.mk h (target :: value :: more) fs b)⟩)
      (hassign : h.kind = .assign) (he : s.table.resolve path = some e) (hv : e.kind = .var v)
      (hmutable : v.mutable = true) (hvalue : Stored B h v.type s value value' s') :
    Access s n (n.withTail (.mk h (target :: value' :: more) fs b)) .unit s'
  /-- A chain that names anything else is replaced by what it means. -/
  | replaced {s s' : State} {n n' : Node} {path tail} {e : SymbolEntry} {kind type}
      (hmember : ¬ s.table.IsMember n)
      (hchain : n.chain? = some ⟨path, tail⟩) (he : s.table.resolve path = some e)
      (hkind : e.kind.LowersTo kind) (hnew : Replaces B s tail n.loc kind n' type)
      (hmarks : s.Marks s') :
    Access s n n' type s'

/-- An expression is accepted where a type is expected. -/
inductive Accepts (expected : Ty) : State → Node → Node → Ty → State → Prop
  | int {s : State} {h : Head} {cs fs b} (hkind : h.kind = .int) :
    Accepts expected s (.mk h cs fs b) (.mk h cs fs b)
      (if h.type.isUnknown then s.table.integerType expected else h.type) s
  | float {s : State} {h : Head} {cs fs b} (hkind : h.kind = .float) :
    Accepts expected s (.mk h cs fs b) (.mk h cs fs b) (s.table.floatType expected) s
  | str {s} {h : Head} {cs fs b} (hkind : h.kind = .str) :
    Accepts expected s (.mk h cs fs b) (.mk h cs fs b) (.basic .str) s
  | bool {s} {h : Head} {cs fs b} (hkind : h.kind = .bool) :
    Accepts expected s (.mk h cs fs b) (.mk h cs fs b) (.basic .bool) s
  | name {s s'} {h : Head} {cs fs b type}
      (hkind : h.kind = .ident) (hread : CleanRun (readName h) s (some type) s') :
    Accepts expected s (.mk h cs fs b) (.mk h cs fs b) type s'
  /-- A node that analysis has made is not looked into. -/
  | made {s} {h : Head} {cs fs b} (hkind : h.kind = .literal ∨ h.kind = .typedCall) :
    Accepts expected s (.mk h cs fs b) (.mk h cs fs b) h.type s
  | operation {s s' h cs cs' fs b type} (hcs : Operation B h expected s cs cs' type s') :
    Accepts expected s (.mk h cs fs b) (.mk h cs' fs b) type s'
  | assignment {s s'} {h : Head} {cs cs' fs b}
      (hkind : h.kind = .assign) (hcs : Assignment B h s cs cs' s') :
    Accepts expected s (.mk h cs fs b) (.mk h cs' fs b) .unit s'
  | access {s s'} {n n' : Node} {type} (hkind : n.kind?.any Kind.isChain)
      (haccess : Access B s n n' type s') :
    Accepts expected s n n' type s'

end Expressions

/-! ## Statements -/

/-- What is accepted of statements: from a state, a statement becomes a node, and a state is
left. -/
abbrev StmtJudgement := State → Node → Node → State → Prop

/-- Something that happens in a scope of its own. -/
def Scoped (context : Context) (P : State → State → Prop) (s s' : State) : Prop :=
  ∃ s₁, P { s with table := s.table.enter context } s₁ ∧ s' = { s₁ with table := s₁.table.exit }

/-- A statement that only declares something or jumps, and the step that does so. -/
inductive Declares : Head → List Node → List (Component Node) → Analysis Unit → Prop
  | record {h : Head} {cs fs}
      (hkind : h.kind = .structDef ∨ h.kind = .unionDef) : Declares h cs fs (record h fs)
  | enum {h : Head} {cs fs} (hkind : h.kind = .enumDef) :
    Declares h cs fs (enum h)
  | variant {h : Head} {cs fs} (hkind : h.kind = .variantDef) :
    Declares h cs fs (variant h)
  | foreign {h : Head} {cs fs} (hkind : h.kind = .externBlock) :
    Declares h cs fs (externItems cs)
  | aliasType {h : Head} {cs fs} (hkind : h.kind = .aliasDef) :
    Declares h cs fs (aliasDecl h)
  | jump {h : Head} {cs fs} (hkind : h.kind = .breakLoop ∨ h.kind = .continueLoop) :
    Declares h cs fs (jump h)

/-- How the statement that declares a variable of a storage is written. -/
def declarationKind : Storage → Option Kind
  | .automatic => some .varDef
  | .static => some .staticDef
  | .constant => some .constDef
  | _ => none

section Statements

variable (B : Judgement) (S : StmtJudgement)

/-- Statements one after the other. -/
inductive Statements : State → List Node → List Node → State → Prop
  | nil {s} : Statements s [] [] s
  | cons {s s₁ s₂ n n' rest rest'} (hn : S s n n' s₁)
      (hrest : Statements s₁ rest rest' s₂) : Statements s (n :: rest) (n' :: rest') s₂

/-- A body: the types that its statements declare are there at its end. -/
def BodyOf (s : State) (nodes nodes' : List Node) (s' : State) : Prop :=
  ∃ s₁, Statements S s nodes nodes' s₁ ∧ CleanRun (settleDeclared s.declared.length) s₁ () s'

/-- A branch of a conditional. -/
inductive Branch : State → Node → Node → State → Prop
  | block {s s'} {h : Head} {cs cs' fs b} (hkind : h.kind = .block) (hbody : BodyOf S s cs cs' s') :
    Branch s (.mk h cs fs b) (.mk h cs' fs b) s'
  | single {s s'} {n n' : Node} (hkind : n.kind? ≠ some .block) (hn : S s n n' s') :
    Branch s n n' s'

inductive Branches : State → List Node → List Node → State → Prop
  | nil {s} : Branches s [] [] s
  | cons {s s₁ s₂ n n' rest rest'} (hn : Branch S s n n' s₁)
      (hrest : Branches s₁ rest rest' s₂) : Branches s (n :: rest) (n' :: rest') s₂

/-- The scope of a loop. -/
def loopContext (s : State) : Context :=
  { s.table.context with safety := .inherited, inLoop := true }

/-- The operands of a loop, the last of which is its body. -/
inductive LoopBody : State → List Node → List Node → State → Prop
  | nil {s} : LoopBody s [] [] s
  | block {s s'} {h : Head} {cs cs' fs b} (hkind : h.kind = .block)
      (hbody : Scoped (loopContext s) (fun s s' => BodyOf S s cs cs' s') s s') :
    LoopBody s [.mk h cs fs b] [.mk h cs' fs b] s'
  | single {s s'} {n : Node} {ns} (hkind : n.kind? ≠ some .block)
      (hbody : Scoped (loopContext s) (fun s s' => BodyOf S s [n] ns s') s s') :
    LoopBody s [n] ns s'
  | cons {s s' n m rest rest'}
      (hrest : LoopBody s (m :: rest) rest' s') : LoopBody s (n :: m :: rest) (n :: rest') s'

/-- The initializer of a variable. -/
inductive Initializer (h : Head) (storage : Storage) : State → List Node → List Node → State → Prop
  | inferred {s s₁ : State} {init init' rest type}
      (hunknown : h.type.isUnknown = true) (hinit : B s init .unknown init' type s₁) :
    Initializer h storage s (init :: rest) (init' :: rest) { s₁ with
      table := s₁.table.insert
        (.binding h.name ⟨type, h.mutable && storage != .constant, storage, true⟩ h.loc) }
  | none {s s₁ : State} (hknown : h.type.isUnknown = false)
      (htype : CleanRun (checkType h.loc h.type) s true s₁) :
    Initializer h storage s [] [] { s₁ with
      table := s₁.table.insert (.binding h.name
        ⟨h.type, h.mutable && storage != .constant, storage, storage == .static⟩ h.loc) }
  | declared {s s₁ s₂ : State} {init init' rest}
      (hknown : h.type.isUnknown = false) (htype : CleanRun (checkType h.loc h.type) s true s₁)
      (hinit : OfType B h.type { s₁ with
        table := s₁.table.insert (.binding h.name
          ⟨h.type, h.mutable && storage != .constant, storage, storage == .static⟩ h.loc) }
        init init' s₂) :
    Initializer h storage s (init :: rest) (init' :: rest) { s₂ with
      table := s₂.table.insert
        (.binding h.name ⟨h.type, h.mutable && storage != .constant, storage, true⟩ h.loc) }

/-- The value of a return, which has the result type of the innermost function. -/
inductive Returned : State → List Node → List Node → State → Prop
  | nothing {s : State} {result outer} (hreturns : s.returns = result :: outer)
      (hfunction : s.table.context.inFunction = true)
      (hunit : s.table.compatible result .unit = true) : Returned s [] [] s
  | value {s s' : State} {result outer value value' rest}
      (hreturns : s.returns = result :: outer) (hfunction : s.table.context.inFunction = true)
      (hvalue : OfType B result s value value' s') :
    Returned s (value :: rest) (value' :: rest) s'

/-- The body of a function with parameters. -/
def FunctionBody (h : Head) (params : List Formal) (cs cs' : List Node) (s s' : State) : Prop :=
  ∃ s₁ s₂, CleanRun (bindFormals (params.zip (h.params.map (·.loc)))) s () s₁ ∧
    BodyOf S { s₁ with returns := h.type :: s₁.returns } cs cs' s₂ ∧
    s' = { s₂ with returns := s₂.returns.tail }

/-- The scope of a function. -/
def functionContext (h : Head) : Context :=
  { safety := if h.isUnsafe then .unsafely else .inherited, inFunction := true }

/-- A statement is accepted. -/
inductive Performs : State → Node → Node → State → Prop
  | module {s r : State} {h : Head} {cs cs' fs b}
      (hkind : h.kind = .moduleDef) (hfree : s.table.lookup h.name = none)
      (hbody : BodyOf S {} cs cs' r) :
    Performs s (.mk h cs fs b) (.mk h cs' fs b) { s with
      findings := s.findings ++ r.findings
      table := s.table.insert (.definition h.name (.moduleDef (some (.table r.table))) h.loc) }
  | declaration {s s' h cs fs b step}
      (hstep : Declares h cs fs step) (hrun : CleanRun step s () s') :
    Performs s (.mk h cs fs b) (.mk h cs fs b) s'
  | signature {s s' : State} {h : Head} {cs fs params}
      (hkind : h.kind = .funcDef) (hfree : s.table.lookup h.name = none)
      (hsig : CleanRun (declareFunction h (functionFlags h .plain)) s params s') :
    Performs s (.mk h cs fs .absent) (.mk h cs fs .absent) s'
  | function {s s₁ s' : State} {h bh : Head} {cs bcs bcs' fs bfs bb params}
      (hkind : h.kind = .funcDef) (hfree : s.table.lookup h.name = none)
      (hsig : CleanRun (declareFunction h (functionFlags h .plain)) s params s₁)
      (hlocal : (functionFlags h .plain).has .foreignFn = false)
      (hbody : Scoped (functionContext h) (FunctionBody S h params bcs bcs') s₁ s') :
    Performs s (.mk h cs fs (.mk bh bcs bfs bb)) (.mk h cs fs (.mk bh bcs' bfs bb)) s'
  | variable {s s' : State} {h : Head} {storage cs cs' fs b}
      (hkind : declarationKind storage = some h.kind)
      (hfree : s.table.lookup h.name = none) (hinit : Initializer B h storage s cs cs' s') :
    Performs s (.mk h cs fs b) (.mk h cs' fs b) s'
  | block {s s' : State} {h : Head} {cs cs' fs b safety}
      (hkind : h.kind = .block ∧ safety = .inherited ∨
        h.kind = .unsafeBlock ∧ safety = .unsafely)
      (hbody : Scoped { s.table.context with safety } (fun s s' => BodyOf S s cs cs' s') s s') :
    Performs s (.mk h cs fs b) (.mk h cs' fs b) s'
  | conditional {s s₁ s'} {h : Head} {condition condition' rest rest' fs b}
      (hkind : h.kind = .ifThen)
      (hcondition : OfType B (.basic .bool) s condition condition' s₁)
      (hrest : Branches S s₁ rest rest' s') :
    Performs s (.mk h (condition :: rest) fs b) (.mk h (condition' :: rest') fs b) s'
  | whileLoop {s s₁ s'} {h : Head} {condition condition' rest rest' fs b}
      (hkind : h.kind = .whileLoop)
      (hcondition : OfType B (.basic .bool) s condition condition' s₁)
      (hrest : LoopBody S s₁ rest rest' s') :
    Performs s (.mk h (condition :: rest) fs b) (.mk h (condition' :: rest') fs b) s'
  | loop {s s'} {h : Head} {cs cs' fs b}
      (hkind : h.kind = .loop) (hsome : cs ≠ []) (hcs : LoopBody S s cs cs' s') :
    Performs s (.mk h cs fs b) (.mk h cs' fs b) s'
  | returned {s s'} {h : Head} {cs cs' fs b}
      (hkind : h.kind = .returnValue) (hcs : Returned B s cs cs' s') :
    Performs s (.mk h cs fs b) (.mk h cs' fs b) s'
  | assignment {s s'} {h : Head} {cs cs' fs b}
      (hkind : h.kind = .assign) (hcs : Assignment B h s cs cs' s') :
    Performs s (.mk h cs fs b) (.mk h cs' fs b) s'
  | expression {s s'} {h : Head} {cs fs b n' type} (hkind : h.kind.isStatement = false)
      (hn : B s (.mk h cs fs b) .unknown n' type s') :
    Performs s (.mk h cs fs b) n' s'

end Statements

end Analysis

end TreeSema
