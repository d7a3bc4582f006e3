import TreeSema.Proofs.Lags

/-!
# What the rules for expressions respect

The rules for expressions see a state only through its table, and change it only by reporting
something and by marking a variable that got a value; what they do with the nodes below they leave to
the level below. So a relation between steps that these few steps have to themselves, and that goes
through two steps in a row, holds between the analyses of an expression on top of any two levels
between which it holds.

The two steps may see different tables, as long as these differ in nothing but the variables that
have a value. That matters where a variable is read, which is one of the few steps, and where one is
assigned to, which is left to whoever uses the relation.

* `Respected`: such a relation, for tables that are alike in some way.
* `Respected.exprStep`: it goes from one level to the next.
* `Respected.of_same`, `Respected.assignName`: the steps that are left if both see the same table.
-/
namespace TreeSema

/-- Is something said about where a node stands or how deep, which no expression says of itself? -/
def Cause.isPlaced : Cause → Bool
  | .outsideLoop _ | .outsideFunction | .tooDeep _ => true
  | _ => false

namespace Analysis

/-- What holds between two steps with results of one type. -/
abbrev StepRel := ∀ ⦃α : Type⦄, Analysis α → Analysis α → Prop

/-- A relation that the steps of which the rules for expressions are made have to themselves, also if
they see two tables that are alike by `A`. -/
structure Respected (A : Symbols → Symbols → Prop) (R : StepRel) : Prop where
  filled : ∀ {t t' : Symbols}, A t t' → t.filled = t'.filled
  pure : ∀ {α : Type} (a : α), R (pure a) (pure a)
  bind : ∀ {α β : Type} {m m' : Analysis α} {f f' : α → Analysis β},
    R m m' → (∀ a, R (f a) (f' a)) → R (m >>= f) (m' >>= f')
  seeing : ∀ {α : Type} {f f' : Symbols → Analysis α},
    (∀ {t t'}, A t t' → R (f t) (f' t')) → R (symbols >>= f) (symbols >>= f')
  report : ∀ (loc : Location) {cause : Cause}, cause.isPlaced = false →
    R (report loc cause) (report loc cause)
  read : ∀ (loc : Location) (path : List Ident) {t t' : Symbols} {e e' : SymbolEntry}, A t t' →
    t.resolve path = some e → t'.resolve path = some e' →
    R (readEntry loc path e) (readEntry loc path e')

namespace Respected

variable {α β : Type} {A : Symbols → Symbols → Prop} {R : StepRel} (hR : Respected A R)

include hR

/-! ## Steps in a row -/

theorem reject (loc : Location) {cause : Cause} (a : α) (h : cause.isPlaced = false) :
    R (do Analysis.report loc cause; return a) (do Analysis.report loc cause; return a) :=
  hR.bind (hR.report loc h) fun _ => hR.pure a

omit hR in
theorem choice {m m' n n' : Analysis α} (c : Prop) [Decidable c] (h : R m m') (h' : R n n') :
    R (if c then m else n) (if c then m' else n') := by
  split
  · exact h
  · exact h'

/-- A step that may give no type, and what is done with the type that it gives. -/
theorem typed {γ : Type} {m m'} {f f' : β × Option γ → Analysis α} (hm : R m m')
    (hnone : ∀ b, R (f (b, none)) (f' (b, none)))
    (hsome : ∀ b c, R (f (b, some c)) (f' (b, some c))) : R (m >>= f) (m' >>= f') := by
  refine hR.bind hm fun r => ?_
  obtain ⟨b, _ | c⟩ := r
  · exact hnone b
  · exact hsome b c

/-! ## Checks -/

/-- A step that asks the table only what does not depend on values. -/
theorem asking {f f' : Symbols → Analysis α} (hf : ∀ t, f' t.filled = f' t)
    (h : ∀ t, R (f t) (f' t)) : R (symbols >>= f) (symbols >>= f') := by
  refine hR.seeing fun {t t'} ht => ?_
  rw [← hf t', ← hR.filled ht, hf t]
  exact h t

theorem unsafeAllowed : R Analysis.unsafeAllowed Analysis.unsafeAllowed :=
  hR.asking (fun t => by simp) fun _ => hR.pure _

theorem accepts (expected actual : Ty) (loc : Location) :
    R (Analysis.accepts expected actual loc) (Analysis.accepts expected actual loc) :=
  hR.asking (fun t => by simp) fun t => choice _ (hR.pure _) (hR.reject _ _ rfl)

mutual

theorem checkType (loc : Location) : ∀ type : Ty,
    R (Analysis.checkType loc type) (Analysis.checkType loc type)
  | .custom path => by
    unfold Analysis.checkType
    refine hR.seeing fun {t t'} ht => ?_
    rcases rel_cases (Symbols.resolve_rel_of_filled (hR.filled ht) path) with
      ⟨ho, ho'⟩ | ⟨e, e', ho, ho', he⟩
    all_goals rw [ho, ho']
    · exact hR.reject _ _ rfl
    · dsimp only
      rcases Entry.kind_cases_of_filled he with ⟨v, v', hv, hv', -⟩ | ⟨b, b', hb, hb'⟩ | hkind
      · rw [hv, hv']
        exact hR.reject _ _ rfl
      · rw [hb, hb']
        exact hR.reject _ _ rfl
      · rw [hkind]
        split
        case h_6 => exact hR.reject _ _ rfl
        all_goals exact hR.pure _
  | .ref target _ => checkType loc target
  | .ptr target => checkType loc target
  | .array _ elem => checkType loc elem
  | .tuple elems => checkTypes loc elems
  | .template _ args => checkTypes loc args
  | .unknown => hR.pure true
  | .unit => hR.pure true
  | .basic _ => hR.pure true

theorem checkTypes (loc : Location) : ∀ types : List Ty,
    R (Analysis.checkTypes loc types) (Analysis.checkTypes loc types)
  | [] => hR.pure true
  | type :: rest => hR.bind (checkType loc type) fun _ => hR.bind (checkTypes loc rest) fun _ =>
      hR.pure _

end

theorem elementType (type : Ty) (loc : Location) :
    R (Analysis.elementType type loc) (Analysis.elementType type loc) := by
  refine hR.asking (fun t => by simp) fun t => ?_
  cases t.underlying type with
  | array | ptr => exact hR.pure _
  | _ => exact hR.reject _ _ rfl

theorem fieldType (type : Ty) (name : Ident) (loc : Location) :
    R (Analysis.fieldType type name loc) (Analysis.fieldType type name loc) := by
  refine hR.asking (fun t => by simp) fun t => ?_
  dsimp only
  cases t.record? (t.pointee type) with
  | none => exact hR.reject _ _ rfl
  | some r =>
    dsimp only
    cases r.fields.get? name with
    | none => exact hR.reject _ _ rfl
    | some field => exact hR.bind hR.unsafeAllowed fun _ => choice _ (hR.reject _ _ rfl) (hR.pure _)

theorem missingOperand (loc : Location) (cs : List Node) (failed : α) :
    R (Analysis.missingOperand loc cs failed) (Analysis.missingOperand loc cs failed) :=
  hR.reject _ _ rfl

/-! ## Operands -/

variable {below below' : ExprRule} (hb : ∀ n expected, R (below n expected) (below' n expected))

omit hR in
theorem around (hR : Respected A R) (h : Head) (fs : List (Component Node)) (b : Node)
    {operands operands' : Analysis (List Node × α)} (ho : R operands operands') :
    R (Analysis.around h fs b operands) (Analysis.around h fs b operands') :=
  hR.bind ho fun _ => hR.pure _

include hb

theorem exprOf (type : Ty) (n : Node) :
    R (Analysis.exprOf below type n) (Analysis.exprOf below' type n) := by
  refine hR.typed (hb n type) (fun _ => hR.pure _) fun n' actual => ?_
  exact hR.bind (hR.accepts _ _ _) fun _ => hR.pure _

theorem indexExpr (n : Node) : R (Analysis.indexExpr below n) (Analysis.indexExpr below' n) := by
  refine hR.typed (hb n _) (fun _ => hR.pure _) fun n' actual => ?_
  refine hR.asking (fun t => by simp) fun t => ?_
  exact choice _ (hR.pure _) (hR.reject _ _ rfl)

theorem conditions : ∀ ns : List Node,
    R (Analysis.conditions below ns) (Analysis.conditions below' ns)
  | [] => hR.pure _
  | n :: rest => hR.bind (hR.exprOf hb _ n) fun _ =>
      choice _ (hR.bind (conditions rest) fun _ => hR.pure _) (hR.pure _)

theorem agreeing (first second : Node) (expected : Ty) :
    R (Analysis.agreeing below first second expected)
      (Analysis.agreeing below' first second expected) := by
  refine hR.typed (hb first expected) (fun _ => hR.pure _) fun first' type => ?_
  refine hR.typed (hb second type) (fun _ => hR.pure _) fun second' other => ?_
  exact hR.bind (hR.accepts _ _ _) fun _ => hR.pure _

omit hb in
theorem binaryType (h : Head) (type : Ty) :
    R (Analysis.binaryType h type) (Analysis.binaryType h type) := by
  refine choice _ (hR.pure _) (hR.asking (fun t => by simp) fun t => ?_)
  exact choice _ (hR.reject _ _ rfl) (hR.pure _)

theorem binary (h : Head) (expected : Ty) (cs : List Node) :
    R (Analysis.binary below h expected cs) (Analysis.binary below' h expected cs) := by
  have hpair : ∀ left right expected, R (Analysis.operandPair below left right expected)
      (Analysis.operandPair below' left right expected) := fun left right expected =>
    choice _ (hR.bind (hR.agreeing hb right left expected) fun _ => hR.pure _)
      (hR.agreeing hb left right expected)
  rcases cs with _ | ⟨left, _ | ⟨right, rest⟩⟩
  · exact hR.missingOperand _ _ _
  · exact hR.missingOperand _ _ _
  · refine choice _ (hR.bind (hR.conditions hb _) fun _ => hR.pure _) ?_
    refine hR.bind (hpair left right _) fun ⟨left', right', type⟩ => ?_
    cases type with
    | none => exact hR.pure _
    | some type => exact hR.bind (hR.binaryType h type) fun _ => hR.pure _

theorem unary (h : Head) (expected : Ty) (cs : List Node) :
    R (Analysis.unary below h expected cs) (Analysis.unary below' h expected cs) := by
  cases cs with
  | nil => exact hR.missingOperand _ _ _
  | cons operand rest =>
    refine hR.typed (hb operand expected) (fun _ => hR.pure _) fun operand' type => ?_
    refine hR.asking (fun t => by simp) fun t => ?_
    exact choice _ (hR.pure _) (hR.reject _ _ rfl)

theorem borrow (h : Head) (expected : Ty) (cs : List Node) :
    R (Analysis.borrow below h expected cs) (Analysis.borrow below' h expected cs) := by
  cases cs with
  | nil => exact hR.missingOperand _ _ _
  | cons operand rest =>
    refine hR.asking (fun t => by simp [borrowedType]) fun t => ?_
    refine hR.typed (hb operand _) (fun _ => hR.pure _) fun operand' type => ?_
    refine hR.asking (fun t => by simp) fun t => ?_
    cases t.immutableRoot? operand' with
    | none => exact hR.pure _
    | some name =>
      cases h.mutable with
      | true => exact hR.reject _ _ rfl
      | false => exact hR.pure _

theorem deref (h : Head) (cs : List Node) :
    R (Analysis.deref below h cs) (Analysis.deref below' h cs) := by
  cases cs with
  | nil => exact hR.missingOperand _ _ _
  | cons operand rest =>
    refine hR.typed (hb operand _) (fun _ => hR.pure _) fun operand' type => ?_
    refine hR.asking (fun t => by simp) fun t => ?_
    cases t.underlying type with
    | ref | ptr => exact hR.pure _
    | _ => exact hR.reject _ _ rfl

theorem tupleElems : ∀ (hints : List Ty) (cs : List Node),
    R (Analysis.tupleElems below hints cs) (Analysis.tupleElems below' hints cs)
  | _, [] => hR.pure _
  | hints, n :: rest => by
    refine hR.typed (hb n _) (fun _ => hR.pure _) fun n' type => ?_
    exact hR.bind (tupleElems hints.tail rest) fun _ => hR.pure _

theorem tuple (expected : Ty) (cs : List Node) :
    R (Analysis.tuple below expected cs) (Analysis.tuple below' expected cs) := by
  refine choice _ (hR.pure _) (hR.asking (fun t => by simp [tupleHints]) fun t => ?_)
  exact hR.bind (hR.tupleElems hb _ _) fun _ => hR.pure _

theorem arrayElems : ∀ (elem : Ty) (cs : List Node),
    R (Analysis.arrayElems below elem cs) (Analysis.arrayElems below' elem cs)
  | _, [] => hR.pure _
  | elem, n :: rest => by
    refine hR.typed (hb n elem) (fun _ => hR.pure _) fun n' type => ?_
    refine choice _ (hR.bind (arrayElems type rest) fun _ => hR.pure _) ?_
    refine hR.bind (hR.accepts _ _ _) fun _ => choice _ ?_ (hR.pure _)
    exact hR.bind (arrayElems elem rest) fun _ => hR.pure _

theorem array (h : Head) (expected : Ty) (cs : List Node) :
    R (Analysis.array below h expected cs) (Analysis.array below' h expected cs) := by
  refine hR.asking (fun t => by simp [elementHint]) fun t => ?_
  exact choice _ (hR.reject _ _ rfl) (hR.bind (hR.arrayElems hb _ _) fun _ => hR.pure _)

theorem index (h : Head) (cs : List Node) :
    R (Analysis.index below h cs) (Analysis.index below' h cs) := by
  rcases cs with _ | ⟨base, _ | ⟨idx, rest⟩⟩
  · exact hR.missingOperand _ _ _
  · exact hR.missingOperand _ _ _
  · refine hR.typed (hb base _) (fun _ => hR.pure _) fun base' type => ?_
    refine hR.bind (hR.elementType type _) fun elem => ?_
    cases elem with
    | none => exact hR.pure _
    | some elem => exact hR.bind (hR.indexExpr hb idx) fun _ => hR.pure _

theorem cast (h : Head) (cs : List Node) :
    R (Analysis.cast below h cs) (Analysis.cast below' h cs) := by
  cases cs with
  | nil => exact hR.missingOperand _ _ _
  | cons operand rest =>
    refine hR.typed (hb operand _) (fun _ => hR.pure _) fun operand' type => ?_
    exact hR.bind (hR.checkType _ _) fun _ => hR.pure _

/-! ## Places and assignments -/

omit hb in
theorem memberPlace (loc : Location) (left right : Node)
    {leftPlace leftPlace' : Analysis (Node × Option Place)} (hleft : R leftPlace leftPlace') :
    R (Analysis.memberPlace loc left leftPlace right)
      (Analysis.memberPlace loc left leftPlace' right) := by
  cases right with
  | absent => exact hR.reject _ _ rfl
  | mk r _ _ _ =>
    refine choice _ (hR.bind hleft fun ⟨left', p⟩ => ?_) (hR.reject _ _ rfl)
    cases p with
    | none => exact hR.pure _
    | some p =>
      refine hR.asking (fun t => by simp) fun t => ?_
      refine hR.bind (hR.fieldType _ _ _) fun field => ?_
      cases field with
      | none => exact hR.pure _
      | some field => exact hR.pure _

omit hb in
theorem entryPlace (loc : Location) (path : List Ident) {o o'}
    (h : Option.Rel (fun e e' => e.filled = e'.filled) o o') :
    R (Analysis.entryPlace loc path o) (Analysis.entryPlace loc path o') := by
  cases h with
  | none => exact hR.reject _ _ rfl
  | some he =>
    unfold Analysis.entryPlace
    dsimp only
    rcases Entry.kind_cases_of_filled he with ⟨v, v', hv, hv', htype, hmutable, -⟩ |
      ⟨b, b', hb, hb'⟩ | hkind
    · rw [hv, hv']
      dsimp only
      rw [htype, hmutable]
      exact hR.pure _
    · rw [hb, hb']
      exact hR.reject _ _ rfl
    · rw [hkind]
      split
      · exact hR.pure _
      · exact hR.reject _ _ rfl

omit hb in
theorem elementsPlace (loc : Location) (p : Place) :
    R (Analysis.elementsPlace loc p) (Analysis.elementsPlace loc p) := by
  refine hR.asking (fun t => by simp) fun t => ?_
  cases t.underlying p.type with
  | ptr => exact hR.pure _
  | _ => exact hR.bind (hR.elementType _ _) fun _ => hR.pure _

theorem elementPlace (loc : Location) (p : Place) (index : Node) :
    R (Analysis.elementPlace below loc p index) (Analysis.elementPlace below' loc p index) := by
  refine hR.bind (hR.elementsPlace loc p) fun element => ?_
  cases element with
  | none => exact hR.pure _
  | some element => exact hR.bind (hR.indexExpr hb index) fun _ => hR.pure _

omit hb in
theorem pointeePlace (loc : Location) (root : Ident) (type : Ty) :
    R (Analysis.pointeePlace loc root type) (Analysis.pointeePlace loc root type) := by
  refine hR.asking (fun t => by simp) fun t => ?_
  cases t.underlying type with
  | ref | ptr => exact hR.pure _
  | _ => exact hR.reject _ _ rfl

theorem place : ∀ n : Node, R (Analysis.place below n) (Analysis.place below' n)
  | .absent => hR.reject _ _ rfl
  | .mk h cs fs b => by
    have hmissing : R (Analysis.around h fs b (Analysis.missingOperand h.loc cs none))
        (Analysis.around h fs b (Analysis.missingOperand h.loc cs (none : Option Place))) :=
      around hR h fs b (hR.missingOperand _ _ _)
    unfold Analysis.place
    cases h.kind with
    | ident =>
      exact hR.seeing fun ht => hR.bind
        (hR.entryPlace _ _ (Symbols.lookup_of_filled (hR.filled ht) h.name)) fun _ => hR.pure _
    | path =>
      dsimp only
      rcases Node.chain? (.mk h cs fs b) with _ | ⟨path, _ | tail⟩
      · exact hR.reject _ _ rfl
      · exact hR.seeing fun ht => hR.bind
          (hR.entryPlace _ _ (Symbols.resolve_rel_of_filled (hR.filled ht) path)) fun _ => hR.pure _
      · exact hR.reject _ _ rfl
    | dot =>
      rcases cs with _ | ⟨left, _ | ⟨right, rest⟩⟩
      · exact hmissing
      · exact hmissing
      · exact hR.bind (hR.memberPlace _ _ _ (place left)) fun _ => hR.pure _
    | index =>
      rcases cs with _ | ⟨base, _ | ⟨index, rest⟩⟩
      · exact hmissing
      · exact hmissing
      · refine hR.typed (place base) (fun _ => hR.pure _) fun base' p => ?_
        exact hR.bind (hR.elementPlace hb _ _ _) fun _ => hR.pure _
    | deref =>
      cases cs with
      | nil => exact hmissing
      | cons operand rest =>
        refine hR.typed (hb operand _) (fun _ => hR.pure _) fun operand' type => ?_
        exact hR.bind (hR.pointeePlace _ _ _) fun _ => hR.pure _
    | _ => exact hR.reject _ _ rfl

theorem storedValue (h : Head) (expected : Ty) (value : Node) :
    R (Analysis.storedValue below h expected value)
      (Analysis.storedValue below' h expected value) := by
  refine hR.asking (fun t => by simp) fun t => ?_
  exact choice _ (hR.reject _ _ rfl) (hR.exprOf hb _ _)

theorem store (h : Head) (target : Option Place) (value : Node) :
    R (Analysis.store below h target value) (Analysis.store below' h target value) := by
  cases target with
  | none => exact hR.pure _
  | some p =>
    refine choice _ (hR.storedValue hb _ _ _) (hR.reject _ _ ?_)
    cases p.viaRef <;> rfl

variable (ha : ∀ h target value,
  R (Analysis.assignName below h target value) (Analysis.assignName below' h target value))

include ha in
theorem assign (h : Head) (cs : List Node) :
    R (Analysis.assign below h cs) (Analysis.assign below' h cs) := by
  rcases cs with _ | ⟨target, _ | ⟨value, rest⟩⟩
  · exact hR.missingOperand _ _ _
  · exact hR.missingOperand _ _ _
  · exact choice _ (hR.bind (ha _ _ _) fun _ => hR.pure _)
      (hR.bind (hR.place hb target) fun _ => hR.bind (hR.store hb _ _ _) fun _ => hR.pure _)

/-! ## Components, arguments and chains -/

theorem components (fields : Fields) (owner : List Ident) :
    ∀ done fs : List (Component Node), R (Analysis.components below fields owner done fs)
      (Analysis.components below' fields owner done fs)
  | _, [] => hR.pure _
  | done, f :: rest => by
    unfold Analysis.components
    cases fields.get? f.name with
    | none => exact hR.reject _ _ rfl
    | some type =>
      refine hR.asking (fun t => by simp) fun t => ?_
      exact hR.bind (hR.exprOf hb _ _) fun r =>
        choice _ (hR.bind (components fields owner _ rest) fun _ => hR.pure _) (hR.pure _)

theorem argument (path : List Ident) (param : Ty) (arg : Node) :
    R (Analysis.argument below path param arg) (Analysis.argument below' path param arg) := by
  refine choice _ (hR.bind (hb arg _) fun _ => hR.pure _) ?_
  exact hR.asking (fun t => by simp) fun t => hR.exprOf hb _ _

theorem arguments (path : List Ident) : ∀ (params : List Ty) (args : List Node),
    R (Analysis.arguments below path params args) (Analysis.arguments below' path params args)
  | _, [] => hR.pure _
  | params, arg :: rest => hR.bind (hR.argument hb path _ arg) fun _ =>
      choice _ (hR.bind (arguments path params.tail rest) fun _ => hR.pure _) (hR.pure _)

theorem argumentsByName (path : List Ident) (sig : Signature) : ∀ fs : List (Component Node),
    R (Analysis.argumentsByName below path sig fs) (Analysis.argumentsByName below' path sig fs)
  | [] => hR.pure _
  | f :: rest => by
    unfold Analysis.argumentsByName
    rcases sig.param? f.name with _ | ⟨param, place⟩
    · exact hR.reject _ _ rfl
    · exact hR.bind (hR.argument hb _ _ _) fun _ =>
        choice _ (hR.bind (argumentsByName path sig rest) fun _ => hR.pure _) (hR.pure _)

omit hb in
theorem inOrder (loc : Location) (path : List Ident) (given : List (Component Node)) :
    ∀ params : List Formal, R (Analysis.inOrder loc path given params)
      (Analysis.inOrder loc path given params)
  | [] => hR.pure _
  | p :: rest => by
    unfold Analysis.inOrder
    cases givenValue? given p.name with
    | none => exact hR.reject _ _ rfl
    | some value => exact hR.bind (inOrder loc path given rest) fun _ => hR.pure _

omit hb in
theorem countArguments (loc : Location) (path : List Ident) (sig : Signature) (count : Nat) :
    R (Analysis.countArguments loc path sig count) (Analysis.countArguments loc path sig count) :=
  choice _ (choice _ (hR.reject _ _ rfl) (hR.pure _)) (choice _ (hR.reject _ _ rfl) (hR.pure _))

theorem callArguments (path : List Ident) (sig : Signature) (h : Head) (cs : List Node)
    (fs : List (Component Node)) (b : Node) :
    R (Analysis.callArguments below path sig h cs fs b)
      (Analysis.callArguments below' path sig h cs fs b) := by
  refine choice _ ?_ ?_
  · exact hR.bind (hR.argumentsByName hb path sig fs) fun _ =>
      choice _ (hR.bind (hR.inOrder _ _ _ _) fun _ => hR.pure _)
        (hR.bind (hR.pure _) fun _ => hR.pure _)
  · exact hR.bind (hR.countArguments _ _ _ _) fun _ =>
      choice _ (hR.bind (hR.arguments hb path _ cs) fun _ => hR.pure _) (hR.pure _)

theorem call (n : Node) (c : Chain) (sig : Signature) :
    R (Analysis.call below n c sig) (Analysis.call below' n c sig) := by
  obtain ⟨path, _ | _ | ⟨h, cs, fs, b⟩⟩ := c
  · exact hR.reject _ _ rfl
  · exact hR.reject _ _ rfl
  · refine choice _ (hR.reject _ _ rfl) (hR.bind hR.unsafeAllowed fun allowed => ?_)
    refine choice _ (hR.reject _ _ rfl) (hR.bind (hR.callArguments hb _ _ _ _ _ _) ?_)
    intro ⟨tail, args⟩
    cases args with
    | none => exact hR.pure _
    | some args => exact hR.asking (fun t => by simp) fun t => hR.pure _

theorem literal (n : Node) (c : Chain) (fields : Fields) (union : Bool) :
    R (Analysis.literal below n c fields union) (Analysis.literal below' n c fields union) := by
  obtain ⟨path, _ | _ | ⟨h, cs, fs, b⟩⟩ := c
  · exact hR.reject _ _ rfl
  · exact hR.reject _ _ rfl
  · refine choice _ (hR.reject _ _ rfl) (hR.bind hR.unsafeAllowed fun allowed => ?_)
    refine choice _ (hR.reject _ _ rfl) (hR.bind (hR.components hb _ _ _ _) fun ⟨fs', built⟩ => ?_)
    cases built with
    | none => exact hR.pure _
    | some built => exact hR.asking (fun t => by simp) fun t => hR.pure _

theorem tuplePayload (path : List Ident) : ∀ (i : Nat) (types : List Ty) (cs : List Node),
    R (Analysis.tuplePayload below path i types cs) (Analysis.tuplePayload below' path i types cs)
  | _, [], _ => hR.pure _
  | _, _ :: _, [] => hR.pure _
  | i, _ :: types, _ :: rest => by
    refine hR.asking (fun t => by simp) fun t => ?_
    exact hR.bind (hR.exprOf hb _ _) fun _ =>
      choice _ (hR.bind (tuplePayload path (i + 1) types rest) fun _ => hR.pure _) (hR.pure _)

theorem constructorPayload (n : Node) (c : Chain) (payload : Payload) :
    R (Analysis.constructorPayload below n c payload)
      (Analysis.constructorPayload below' n c payload) := by
  obtain ⟨path, tail⟩ := c
  cases payload with
  | common => exact choice _ (hR.pure _) (hR.reject _ _ rfl)
  | tuple types =>
    rcases tail with _ | _ | ⟨h, cs, fs, b⟩
    · exact hR.reject _ _ rfl
    · exact hR.reject _ _ rfl
    · exact choice _ (hR.reject _ _ rfl) (choice _ (hR.reject _ _ rfl)
        (hR.bind (hR.tuplePayload hb path 0 types cs) fun _ => hR.pure _))
  | struct fields =>
    rcases tail with _ | _ | ⟨h, cs, fs, b⟩
    · exact hR.reject _ _ rfl
    · exact hR.reject _ _ rfl
    · exact choice _ (hR.reject _ _ rfl)
        (hR.bind (hR.components hb fields path [] fs) fun _ => hR.pure _)
  | unknown => exact hR.reject _ _ rfl

theorem construct (n : Node) (c : Chain) (owner : Ident) (payload : Payload) (ordinal : Int) :
    R (Analysis.construct below n c owner payload ordinal)
      (Analysis.construct below' n c owner payload ordinal) := by
  refine hR.typed (hR.constructorPayload hb n c payload) (fun _ => hR.pure _) fun n' built => ?_
  exact choice _ (hR.reject _ _ rfl) (hR.asking (fun t => by simp) fun t => hR.pure _)

theorem member (h : Head) (cs : List Node) :
    R (Analysis.member below h cs) (Analysis.member below' h cs) := by
  rcases cs with _ | ⟨left, _ | ⟨right, rest⟩⟩
  · exact hR.missingOperand _ _ _
  · exact hR.missingOperand _ _ _
  · cases right with
    | absent => exact hR.reject _ _ rfl
    | mk r cs fs b =>
      unfold Analysis.member
      dsimp only
      cases r.kind with
      | ident =>
        refine hR.typed (hb left _) (fun _ => hR.pure _) fun left' type => ?_
        exact hR.bind (hR.fieldType _ _ _) fun _ => hR.pure _
      | assign =>
        rcases cs with _ | ⟨target, _ | ⟨value, more⟩⟩
        · exact hR.missingOperand _ _ _
        · exact hR.missingOperand _ _ _
        · exact hR.bind (hR.memberPlace _ _ _ (hR.place hb left)) fun _ =>
            hR.bind (hR.store hb _ _ _) fun _ => hR.pure _
      | call | lit =>
        refine hR.typed (hb left _) (fun _ => hR.pure _) fun left' type => ?_
        exact hR.asking (fun t => by simp) fun t => hR.reject _ _ rfl
      | _ => exact hR.reject _ _ rfl

theorem moduleVariable (n : Node) (c : Chain) {t t' : Symbols} (ht : A t t') {e e' : SymbolEntry}
    (he : t.resolve c.path = some e) (he' : t'.resolve c.path = some e') {v v' : Variable}
    (htype : v.type = v'.type) (hmutable : v.mutable = v'.mutable) :
    R (Analysis.moduleVariable below n c e v) (Analysis.moduleVariable below' n c e' v') := by
  obtain ⟨path, _ | _ | ⟨h, _ | ⟨target, _ | ⟨value, more⟩⟩, fs, b⟩⟩ := c
  · exact hR.bind (hR.read _ _ ht he he') fun _ => hR.pure _
  · exact hR.reject _ _ rfl
  · exact hR.reject _ _ rfl
  · exact hR.reject _ _ rfl
  · unfold Analysis.moduleVariable
    dsimp only
    rw [htype, hmutable]
    exact choice _ (hR.bind (hR.store hb _ _ _) fun _ => hR.pure _) (hR.reject _ _ rfl)

theorem named (n : Node) (c : Chain) {t t' : Symbols} (ht : A t t') {e e' : SymbolEntry}
    (he : t.resolve c.path = some e) (he' : t'.resolve c.path = some e')
    (hfilled : e.filled = e'.filled) :
    R (Analysis.named below n c e) (Analysis.named below' n c e') := by
  unfold Analysis.named
  rcases Entry.kind_cases_of_filled hfilled with ⟨v, v', hv, hv', htype, hmutable, -⟩ |
    ⟨b, b', hb, hb'⟩ | hkind
  · rw [hv, hv']
    exact hR.moduleVariable hb n c ht he he' htype hmutable
  · rw [hb, hb']
    exact hR.reject _ _ rfl
  · rw [hkind]
    cases e'.kind with
    | enumValue owner value =>
      exact choice _ (hR.reject _ _ rfl) (hR.asking (fun t => by simp) fun t => hR.pure _)
    | variantArm owner payload ordinal => exact hR.construct hb n c owner payload ordinal
    | structDef fields => exact hR.literal hb n c fields false
    | unionDef fields => exact hR.literal hb n c fields true
    | func sig => exact hR.call hb n c sig
    | var v => exact hR.moduleVariable hb n c ht he he' rfl rfl
    | _ => exact hR.reject _ _ rfl

theorem access (n : Node) : R (Analysis.access below n) (Analysis.access below' n) := by
  refine hR.seeing fun {t t'} ht => ?_
  rw [Symbols.same_of_filled Symbols.startsAtValue_filled (hR.filled ht)]
  refine choice _ (hR.bind (hR.member hb _ _) fun _ => hR.pure _) ?_
  cases n.chain? with
  | none => exact hR.reject _ _ rfl
  | some c =>
    dsimp only
    rcases rel_cases (Symbols.resolve_rel_of_filled (hR.filled ht) c.path) with
      ⟨he, he'⟩ | ⟨e, e', he, he', hfilled⟩
    all_goals rw [he, he']
    · exact hR.reject _ _ rfl
    · exact hR.named hb n c ht he he' hfilled

/-! ## Expressions -/

omit hb in
theorem readName (h : Head) : R (Analysis.readName h) (Analysis.readName h) := by
  have hresolve : ∀ {t : Symbols} {e}, t.lookup h.name = some e → t.resolve [h.name] = some e := by
    intro t e he
    unfold Symbols.resolve Table.resolveBy
    rw [he]
    rfl
  refine hR.seeing fun {t t'} ht => ?_
  rcases rel_cases (Symbols.lookup_of_filled (hR.filled ht) h.name) with
    ⟨he, he'⟩ | ⟨e, e', he, he', -⟩
  all_goals rw [he, he']
  · exact hR.reject _ _ rfl
  · exact hR.read _ _ ht (hresolve he) (hresolve he')

include ha in
/-- What holds between two levels, and between assignments to names on top of them, holds between the
analyses of an expression on top of them. -/
theorem exprStep (expected : Ty) (n : Node) :
    R (Analysis.exprStep below expected n) (Analysis.exprStep below' expected n) := by
  cases n with
  | absent => exact hR.reject _ _ rfl
  | mk h cs fs b =>
    unfold Analysis.exprStep
    dsimp only
    cases h.kind with
    | int | float => exact hR.asking (fun t => by simp) fun t => hR.pure _
    | str | bool | literal | typedCall => exact hR.pure _
    | ident => exact hR.bind (hR.readName h) fun _ => hR.pure _
    | binary => exact around hR h fs b (hR.binary hb h expected cs)
    | unary => exact around hR h fs b (hR.unary hb h expected cs)
    | ref => exact around hR h fs b (hR.borrow hb h expected cs)
    | deref => exact around hR h fs b (hR.deref hb h cs)
    | assign => exact hR.bind (hR.assign hb ha h cs) fun _ => hR.pure _
    | call | lit | dot | path => exact hR.access hb _
    | tuple => exact around hR h fs b (hR.tuple hb expected cs)
    | array => exact around hR h fs b (hR.array hb h expected cs)
    | index => exact around hR h fs b (hR.index hb h cs)
    | cast => exact around hR h fs b (hR.cast hb h cs)
    | _ => exact hR.reject _ _ rfl

/-! ## Steps that see the same table -/

omit hR hb in
/-- If both steps see the same table, little has to be known of seeing and reading. -/
theorem of_same (hpure : ∀ {α : Type} (a : α), R (Pure.pure a) (Pure.pure a))
    (hbind : ∀ {α β : Type} {m m' : Analysis α} {f f' : α → Analysis β},
      R m m' → (∀ a, R (f a) (f' a)) → R (m >>= f) (m' >>= f'))
    (hsymbols : R Analysis.symbols Analysis.symbols)
    (hreport : ∀ (loc : Location) {cause : Cause}, cause.isPlaced = false →
      R (Analysis.report loc cause) (Analysis.report loc cause)) : Respected Eq R where
  filled h := h ▸ rfl
  pure := hpure
  bind := hbind
  seeing hf := hbind hsymbols fun _ => hf rfl
  report := hreport
  read loc path {t t' e e'} ht he he' := by
    subst ht
    cases he.symm.trans he'
    unfold readEntry
    cases e.kind with
    | var v =>
      dsimp only
      cases v.initialized with
      | true => exact hpure _
      | false => exact hbind (hreport _ rfl) fun _ => hpure _
    | _ => exact hbind (hreport _ rfl) fun _ => hpure _

omit hR hb in
/-- Then an assignment to a name is a few more steps, of which marking the name is one. -/
theorem assignName (hR : Respected Eq R)
    (hvalue : ∀ name : Ident, R (modifyTable (·.modify name .withValue))
      (modifyTable (·.modify name .withValue)))
    (hb : ∀ n expected, R (below n expected) (below' n expected)) (h target : Head) (value : Node) :
    R (Analysis.assignName below h target value) (Analysis.assignName below' h target value) := by
  have hstore : ∀ expected, R (storeName below h target.name expected value)
      (storeName below' h target.name expected value) := fun expected =>
    hR.bind (hR.storedValue hb h expected value) fun ⟨_, ok⟩ => by
      cases ok with
      | false => exact hR.pure _
      | true => exact hR.bind (hvalue _) fun _ => hR.pure _
  refine hR.seeing fun {t _} ht => ?_
  subst ht
  dsimp only
  cases t.lookup target.name with
  | none => exact hR.reject _ _ rfl
  | some e =>
    dsimp only
    cases e.kind with
    | var v =>
      dsimp only
      cases hassignable : t.assignable h.op target.name v with
      | error cause =>
        exact hR.reject _ _ (by rcases assignable_cause hassignable with rfl | rfl <;> rfl)
      | ok expected => exact choice _ (hR.bind (hR.report _ rfl) fun _ => hstore _) (hstore _)
    | _ => exact hR.reject _ _ rfl

end Respected

end Analysis

end TreeSema
