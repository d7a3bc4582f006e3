import TreeSema.Proofs.Rewrite.Basic
import TreeSema.Proofs.Trace.Through

/-!
# What analysis makes of expressions

One statement for each rule: whatever is kept by the elementary changes of a state is kept by the
rule, with the verdict that its result tells, and the rule relates the nodes it is given to those it
returns, if the analysis of the nodes below does so (`ExprRule.Judges`).

* `exprStep_judges`: analysis of an expression relates it to its outcome.
* `exprAt_relates`: so it does at every level, for a property that does not depend on verdicts.
-/
namespace TreeSema.Analysis

variable {α β : Type} {I : Bool → State → Prop} {R : Node → Node → Prop} {P : Node → Prop}
  {below : ExprRule}

/-- An analysis of expressions keeps a property of states and relates each expression to what it
makes of it. -/
def ExprRule.Relates (I : State → Prop) (R : Node → Node → Prop) (rule : ExprRule) : Prop :=
  ∀ n e, Ensures I (rule n e) fun r => R n r.1

/-- An analysis of expressions keeps a property of states with the verdict on each expression, and
relates the expression to what it makes of it. -/
def ExprRule.Judges (I : Bool → State → Prop) (R : Node → Node → Prop) (rule : ExprRule) : Prop :=
  ∀ n e, Analysis.Judges I true (rule n e) (·.2.isSome) fun r => R n r.1

/-! ## Checks that change no node -/

section Checks

variable (hI : Reports I)

include hI

theorem accepts_judges (expected actual : Ty) (loc : Location) :
    Judges I true (accepts expected actual loc) id fun _ => True := by
  refine .symbols fun t _ => ?_
  split
  · exact .pure rfl trivial
  · exact hI.reject loc rfl rfl trivial

theorem elementType_judges (type : Ty) (loc : Location) :
    Judges I true (elementType type loc) Option.isSome fun _ => True := by
  refine .symbols fun t _ => ?_
  split
  · exact .pure rfl trivial
  · exact .pure rfl trivial
  · exact hI.reject loc rfl rfl trivial

theorem fieldType_judges (type : Ty) (name : Ident) (loc : Location) :
    Judges I true (fieldType type name loc) Option.isSome fun _ => True := by
  refine .symbols fun t _ => ?_
  dsimp only
  split
  · split
    · refine .unsafeAllowed fun allowed => ?_
      split
      · exact hI.reject loc rfl rfl trivial
      · exact .pure rfl trivial
    · exact hI.reject loc rfl rfl trivial
  · exact hI.reject loc rfl rfl trivial

theorem readEntry_judges (loc : Location) (path : List Ident) (e : SymbolEntry) :
    Judges I true (readEntry loc path e) Option.isSome fun _ => True := by
  unfold readEntry
  split
  · dsimp only
    split
    · exact .pure rfl trivial
    · exact (hI.warn loc rfl).bind fun _ _ => .pure rfl trivial
  · exact hI.reject loc rfl rfl trivial

theorem readName_judges (h : Head) : Judges I true (readName h) Option.isSome fun _ => True := by
  refine .symbols fun t _ => ?_
  split
  · exact hI.reject _ rfl rfl trivial
  · exact readEntry_judges hI _ _ _

theorem binaryType_judges (h : Head) (type : Ty) :
    Judges I true (binaryType h type) Option.isSome fun _ => True := by
  unfold binaryType
  split
  · exact .pure rfl trivial
  · refine .symbols fun t _ => ?_
    split
    · exact hI.reject _ rfl rfl trivial
    · exact .pure rfl trivial

theorem entryPlace_judges (loc : Location) (path : List Ident) (e : Option SymbolEntry) :
    Judges I true (entryPlace loc path e) Option.isSome fun _ => True := by
  unfold entryPlace
  split
  · exact hI.reject _ rfl rfl trivial
  · split
    · exact .pure rfl trivial
    · exact hI.reject _ rfl rfl trivial

theorem elementsPlace_judges (loc : Location) (p : Place) :
    Judges I true (elementsPlace loc p) Option.isSome fun _ => True := by
  refine .symbols fun t _ => ?_
  split
  · exact .pure rfl trivial
  · exact (elementType_judges hI _ _).bind fun _ _ => .pure (by simp) trivial

theorem pointeePlace_judges (loc : Location) (root : Ident) (type : Ty) :
    Judges I true (pointeePlace loc root type) Option.isSome fun _ => True := by
  refine .symbols fun t _ => ?_
  split
  · exact .pure rfl trivial
  · exact .pure rfl trivial
  · exact hI.reject _ rfl rfl trivial

theorem countArguments_judges (loc : Location) (path : List Ident) (sig : Signature)
    (count : Nat) : Judges I true (countArguments loc path sig count) id fun _ => True := by
  unfold countArguments
  dsimp only
  split
  · split
    · exact hI.reject _ rfl rfl trivial
    · exact .pure rfl trivial
  · split
    · exact hI.reject _ rfl rfl trivial
    · exact .pure rfl trivial

theorem inOrder_judges (loc : Location) (path : List Ident) (given : List (Component Node)) :
    ∀ params : List Formal, Judges I true (inOrder loc path given params) Option.isSome fun r =>
      ∀ args, r = some args →
        List.Forall₂ (fun p x => givenValue? given p.name = some x) params args
  | [] => .pure rfl (by rintro _ ⟨⟩; exact .nil)
  | p :: rest => by
    unfold inOrder
    split
    · exact hI.reject _ rfl rfl nofun
    · rename_i value hvalue
      refine (inOrder_judges loc path given rest).bind fun args hargs => .pure (by simp) ?_
      rintro _ h
      obtain ⟨rest', rfl, rfl⟩ := Option.map_eq_some_iff.1 h
      exact .cons hvalue (hargs _ rfl)

end Checks

mutual

theorem checkType_judges (hI : Reports I) (loc : Location) (before : Bool) :
    ∀ t : Ty, Judges I before (checkType loc t) (before && ·) fun _ => True
  | .custom path => by
    refine .symbols fun t _ => ?_
    split
    · exact hI.reject _ rfl (Bool.and_false _) trivial
    · split
      all_goals first
        | exact .pure (Bool.and_true _) trivial
        | exact hI.reject _ rfl (Bool.and_false _) trivial
  | .ref t _ => checkType_judges hI loc before t
  | .ptr t => checkType_judges hI loc before t
  | .array _ t => checkType_judges hI loc before t
  | .tuple ts => checkTypes_judges hI loc before ts
  | .template _ ts => checkTypes_judges hI loc before ts
  | .unknown => .pure (Bool.and_true _) trivial
  | .basic _ => .pure (Bool.and_true _) trivial
  | .unit => .pure (Bool.and_true _) trivial

/-- After a type with an unknown name the other types are looked up all the same. -/
theorem checkTypes_judges (hI : Reports I) (loc : Location) (before : Bool) :
    ∀ ts : List Ty, Judges I before (checkTypes loc ts) (before && ·) fun _ => True
  | [] => .pure (Bool.and_true _) trivial
  | t :: ts =>
    (checkType_judges hI loc before t).bind fun _ _ =>
      (checkTypes_judges hI loc _ ts).bind fun _ _ => .pure (Bool.and_assoc ..).symm trivial

end

theorem accepts_ensures {I : State → Prop} (hI : Stable I) (expected actual : Ty) (loc : Location) :
    Ensures I (accepts expected actual loc) fun _ => True :=
  accepts_judges hI.judging.toReports expected actual loc

theorem checkType_ensures {I : State → Prop} (hI : Stable I) (loc : Location) (t : Ty) :
    Ensures I (checkType loc t) fun _ => True :=
  checkType_judges hI.judging.toReports loc true t

theorem accepts_quiet (expected actual : Ty) (loc : Location) :
    Quiet (accepts expected actual loc) := .of_check fun hI => accepts_judges hI _ _ _

theorem checkType_quiet (loc : Location) (t : Ty) : Quiet (checkType loc t) :=
  .of_check fun hI => checkType_judges hI loc true t

theorem checkTypes_quiet (loc : Location) (ts : List Ty) : Quiet (checkTypes loc ts) :=
  .of_check fun hI => checkTypes_judges hI loc true ts

/-! ## Rules in terms of the level below -/

/-- A step goes through its parts, and it keeps a property of states with the verdict that its result
tells. -/
def Proceeds (I : Bool → State → Prop) (P : Node → Prop) (below : ExprRule) (before : Bool)
    (m : Analysis α) (ps : Parts) (ok : α → Bool) (Q : α → Prop) : Prop :=
  ∀ s, I before s → Through below P s (ps s) (m s).2 ∧ I (ok (m s).1) (m s).2 ∧ Q (m s).1

namespace Proceeds

variable {before : Bool} {m : Analysis α} {f : α → Analysis β} {ps : Parts} {next : α → Parts}
  {ok : α → Bool} {ok' : β → Bool} {Q : α → Prop} {Q' : β → Prop}

theorem judges (h : Proceeds I P below before m ps ok Q) : Judges I before m ok Q :=
  fun s hs => (h s hs).2

theorem yields (h : Proceeds (fun _ _ => True) P below before m ps ok Q) : Yields below P m ps :=
  fun s => (h s trivial).1

theorem pure {a : α} (ha : ok a = before) (h : Q a) :
    Proceeds I P below before (Pure.pure a) .none ok Q :=
  fun s hs => ⟨.done (.refl s), ha.symm ▸ hs, h⟩

theorem bind (hm : Proceeds I P below before m ps ok Q)
    (hf : ∀ a, Q a → Proceeds I P below (ok a) (f a) (next a) ok' Q') :
    Proceeds I P below before (m >>= f) (ps.andThen m next) ok' Q' := by
  intro s hs
  obtain ⟨hfirst, hs₁, hQ⟩ := hm s hs
  obtain ⟨hrest, hs', hQ'⟩ := hf _ hQ _ hs₁
  exact ⟨hfirst.append hrest, hs', hQ'⟩

/-- What follows a step that has no parts. -/
theorem following (hm : Proceeds I P below before m .none ok Q)
    (hf : ∀ a, Q a → Proceeds I P below (ok a) (f a) (next a) ok' Q') :
    Proceeds I P below before (m >>= f) (.following m next) ok' Q' := hm.bind hf

/-- What follows a step has no parts. -/
theorem last (hm : Proceeds I P below before m ps ok Q)
    (hf : ∀ a, Q a → Proceeds I P below (ok a) (f a) .none ok' Q') :
    Proceeds I P below before (m >>= f) ps ok' Q' := by
  intro s hs
  simpa [Parts.andThen, Parts.none] using hm.bind hf s hs

theorem seeing {f : Symbols → Analysis β} {next : Symbols → Parts}
    (hf : ∀ t, (∃ s, I before s ∧ s.table = t) → Proceeds I P below before (f t) (next t) ok' Q') :
    Proceeds I P below before (Analysis.symbols >>= f) (.seeing next) ok' Q' :=
  fun s hs => hf _ ⟨s, hs, rfl⟩ s hs

/-- A step that looks at the table, on which its parts do not depend. -/
theorem symbols {f : Symbols → Analysis β}
    (hf : ∀ t, (∃ s, I before s ∧ s.table = t) → Proceeds I P below before (f t) ps ok' Q') :
    Proceeds I P below before (Analysis.symbols >>= f) ps ok' Q' :=
  fun s hs => hf _ ⟨s, hs, rfl⟩ s hs

end Proceeds

/-- What the rules for expressions take from the level below: that it keeps a property of states and
relates an expression to what it makes of it. -/
structure Level (I : Bool → State → Prop) (R : Node → Node → Prop) (below : ExprRule) : Prop where
  judging : Judging I
  rewriting : Rewriting (I true) R
  judges : ExprRule.Judges I R below

namespace Level

variable {n value : Node} {cs : List Node} {name : Ident} {before : Bool} {m : Analysis α}
  {ok : α → Bool} {Q : α → Prop} (L : Level I R below)

include L

/-- A check has no parts. -/
theorem check (hm : ∀ {I : Bool → State → Prop}, Reports I → Judges I before m ok Q) :
    Proceeds I P below before m .none ok Q :=
  fun s hs => ⟨.done (Quiet.of_check hm s), hm L.judging.toReports s hs⟩

theorem reject (loc : Location) {cause : Cause} (hc : cause.isFault = true) {a : α}
    (ha : ok a = false) (h : Q a) :
    Proceeds I P below before (do report loc cause; return a) .none ok Q :=
  L.check fun hI => hI.reject loc hc ha h

/-- That an operand is missing is reported for a node that lacks one. -/
theorem lacks (hgap : Gap P) (loc : Location) {a : α} (ha : ok a = false) (h : Q a) :
    Proceeds I P below before (do report loc (.defect .missingOperand); return a) .none ok Q :=
  fun s hs => ⟨missing_yields hgap loc a s, L.judging.lacks loc ha h s hs⟩

theorem unsafeAllowed :
    Proceeds I P below before Analysis.unsafeAllowed .none (fun _ => before) fun _ => True :=
  L.check fun _ _ hs => ⟨hs, trivial⟩

theorem expr (hn : P n) (expected : Ty) : Proceeds I P below true (below n expected)
    (.expr n expected) (·.2.isSome) fun r => R n r.1 :=
  fun s hs => ⟨below_yields hn expected s, L.judges n expected s hs⟩

/-- The first of some operands. -/
theorem operand {operand rest} (hcs : ∀ c ∈ operand :: rest, P c) (expected : Ty) :
    Proceeds I P below true (below operand expected) (.expr operand expected)
      (·.2.isSome) fun r => List.Forall₂ R (operand :: rest) (r.1 :: rest) :=
  fun s hs =>
    have h := L.expr (hcs operand (.head _)) expected s hs
    ⟨h.1, h.2.1, .cons h.2.2 (L.rewriting.refl_all rest)⟩

/-! ## Operands -/

theorem exprOf (hn : P n) (type : Ty) : Proceeds I P below true (Analysis.exprOf below type n)
    (.expr n type) (·.2) fun r => R n r.1 := by
  refine (L.expr hn type).last fun ⟨n', actual⟩ hn' => ?_
  cases actual with
  | none => exact .pure rfl hn'
  | some actual => exact (L.check fun hI => accepts_judges hI _ _ _).last fun _ _ => .pure rfl hn'

theorem indexExpr (hn : P n) : Proceeds I P below true (Analysis.indexExpr below n)
    (.expr n (.basic .usize)) (·.2) fun r => R n r.1 := by
  refine (L.expr hn _).last fun ⟨n', actual⟩ hn' => ?_
  cases actual with
  | none => exact .pure rfl hn'
  | some actual =>
    refine .symbols fun t _ => ?_
    split
    · exact .pure rfl hn'
    · exact L.reject _ rfl rfl hn'

theorem around (h : Head) (fs : List (Component Node)) (b : Node) {operands ps}
    (ho : Proceeds I P below true operands ps (ok ·.2) fun r => List.Forall₂ R cs r.1) :
    Proceeds I P below true (Analysis.around h fs b operands) ps (ok ·.2)
      fun r => R (.mk h cs fs b) r.1 :=
  ho.last fun _ hcs => .pure rfl (L.rewriting.operands hcs)

theorem conditions : ∀ {ns : List Node}, (∀ n ∈ ns, P n) →
    Proceeds I P below true (Analysis.conditions below ns) (conditionsParts below ns) (·.2)
      fun r => List.Forall₂ R ns r.1
  | [], _ => .pure rfl .nil
  | n :: rest, hns => by
    obtain ⟨hn, hrest⟩ := List.forall_mem_cons.1 hns
    refine (L.exprOf hn _).bind fun ⟨n', ok⟩ hn' => ?_
    cases ok with
    | false => exact .pure rfl (.cons hn' (L.rewriting.refl_all rest))
    | true => exact (conditions hrest).last fun _ hrest' => .pure rfl (.cons hn' hrest')

theorem agreeing {first second} (hfirst : P first) (hsecond : P second) (expected : Ty) :
    Proceeds I P below true (Analysis.agreeing below first second expected)
      (agreeingParts below first second expected) (·.2.2.isSome)
      fun r => R first r.1 ∧ R second r.2.1 := by
  refine (L.expr hfirst expected).bind fun ⟨first', type⟩ hfirst' => ?_
  cases type with
  | none => exact .pure rfl ⟨hfirst', L.rewriting.refl _⟩
  | some type =>
    refine (L.expr hsecond type).last fun ⟨second', other⟩ hsecond' => ?_
    cases other with
    | none => exact .pure rfl ⟨hfirst', hsecond'⟩
    | some other =>
      exact (L.check fun hI => accepts_judges hI _ _ _).last fun _ _ =>
        .pure (by simp) ⟨hfirst', hsecond'⟩

theorem operandPair {left right} (hleft : P left) (hright : P right) (expected : Ty) :
    Proceeds I P below true (Analysis.operandPair below left right expected)
      (operandPairParts below left right expected) (·.2.2.isSome)
      fun r => R left r.1 ∧ R right r.2.1 := by
  unfold Analysis.operandPair operandPairParts
  split
  · exact (L.agreeing hright hleft _).last fun ⟨_, _, _⟩ hr => .pure rfl hr.symm
  · exact L.agreeing hleft hright _

theorem binary (h : Head) (expected : Ty) (hcs : ∀ c ∈ cs, P c) (hgap : cs.length < 2 → Gap P) :
    Proceeds I P below true (Analysis.binary below h expected cs) (binaryParts below h expected cs)
      (·.2.isSome) fun r => List.Forall₂ R cs r.1 := by
  rcases cs with _ | ⟨left, _ | ⟨right, rest⟩⟩
  · exact L.lacks (hgap (by simp)) _ rfl (L.rewriting.refl_all _)
  · exact L.lacks (hgap (by simp)) _ rfl (L.rewriting.refl_all _)
  · dsimp only [Analysis.binary, binaryParts]
    split
    · exact (L.conditions hcs).last fun _ hcs' => .pure (by simp) hcs'
    · refine (L.operandPair (hcs _ (by simp)) (hcs _ (by simp)) _).last
        fun ⟨left', right', type⟩ ⟨hl, hr⟩ => ?_
      have hcs' := List.Forall₂.cons hl (.cons hr (L.rewriting.refl_all rest))
      cases type with
      | none => exact .pure rfl hcs'
      | some type =>
        exact (L.check fun hI => binaryType_judges hI h type).last fun _ _ => .pure rfl hcs'

theorem unary (h : Head) (expected : Ty) (hcs : ∀ c ∈ cs, P c) (hgap : cs.length < 1 → Gap P) :
    Proceeds I P below true (Analysis.unary below h expected cs) (firstPart expected cs)
      (·.2.isSome) fun r => List.Forall₂ R cs r.1 := by
  cases cs with
  | nil => exact L.lacks (hgap Nat.one_pos) _ rfl .nil
  | cons operand rest =>
    refine (L.operand hcs expected).last fun ⟨operand', type⟩ hcs' => ?_
    cases type with
    | none => exact .pure rfl hcs'
    | some type =>
      refine .symbols fun t _ => ?_
      split
      · exact .pure rfl hcs'
      · exact L.reject _ rfl rfl hcs'

theorem borrow (h : Head) (expected : Ty) (hcs : ∀ c ∈ cs, P c) (hgap : cs.length < 1 → Gap P) :
    Proceeds I P below true (Analysis.borrow below h expected cs)
      (.seeing fun t => firstPart (borrowedType t expected) cs) (·.2.isSome)
      fun r => List.Forall₂ R cs r.1 := by
  cases cs with
  | nil => exact L.lacks (hgap Nat.one_pos) _ rfl .nil
  | cons operand rest =>
    refine .seeing fun t _ => (L.operand hcs _).last fun ⟨operand', type⟩ hcs' => ?_
    cases type with
    | none => exact .pure rfl hcs'
    | some type =>
      refine .symbols fun t _ => ?_
      split
      · exact L.reject _ rfl rfl hcs'
      · exact .pure rfl hcs'

theorem deref (h : Head) (hcs : ∀ c ∈ cs, P c) (hgap : cs.length < 1 → Gap P) :
    Proceeds I P below true (Analysis.deref below h cs) (firstPart .unknown cs) (·.2.isSome)
      fun r => List.Forall₂ R cs r.1 := by
  cases cs with
  | nil => exact L.lacks (hgap Nat.one_pos) _ rfl .nil
  | cons operand rest =>
    refine (L.operand hcs _).last fun ⟨operand', type⟩ hcs' => ?_
    cases type with
    | none => exact .pure rfl hcs'
    | some type =>
      refine .symbols fun t _ => ?_
      split
      · exact .pure rfl hcs'
      · exact .pure rfl hcs'
      · exact L.reject _ rfl rfl hcs'

theorem cast (h : Head) (hcs : ∀ c ∈ cs, P c) (hgap : cs.length < 1 → Gap P) :
    Proceeds I P below true (Analysis.cast below h cs) (firstPart .unknown cs) (·.2.isSome)
      fun r => List.Forall₂ R cs r.1 := by
  cases cs with
  | nil => exact L.lacks (hgap Nat.one_pos) _ rfl .nil
  | cons operand rest =>
    refine (L.operand hcs _).last fun ⟨operand', type⟩ hcs' => ?_
    cases type with
    | none => exact .pure rfl hcs'
    | some _ =>
      exact (L.check fun hI => checkType_judges hI _ true _).last fun _ _ => .pure (by simp) hcs'

theorem tupleElems : ∀ (hints : List Ty) {ns : List Node}, (∀ n ∈ ns, P n) →
    Proceeds I P below true (Analysis.tupleElems below hints ns) (tupleElemsParts below hints ns)
      (·.2.isSome) fun r => List.Forall₂ R ns r.1
  | _, [], _ => .pure rfl .nil
  | hints, n :: rest, hns => by
    refine (L.operand hns _).bind fun ⟨n', type⟩ hns' => ?_
    cases type with
    | none => exact .pure rfl hns'
    | some type =>
      exact (tupleElems hints.tail (List.forall_mem_cons.1 hns).2).last fun _ hrest =>
        .pure (by simp) (.cons (List.forall₂_cons.1 hns').1 hrest)

theorem tuple (expected : Ty) (hcs : ∀ c ∈ cs, P c) :
    Proceeds I P below true (Analysis.tuple below expected cs) (tupleParts below expected cs)
      (·.2.isSome) fun r => List.Forall₂ R cs r.1 := by
  unfold Analysis.tuple tupleParts
  split
  · exact .pure rfl (L.rewriting.refl_all cs)
  · exact .seeing fun t _ => (L.tupleElems _ hcs).last fun _ hcs' => .pure (by simp) hcs'

theorem arrayElems : ∀ (elem : Ty) {ns : List Node}, (∀ n ∈ ns, P n) →
    Proceeds I P below true (Analysis.arrayElems below elem ns) (arrayElemsParts below elem ns)
      (·.2.isSome) fun r => List.Forall₂ R ns r.1
  | _, [], _ => .pure rfl .nil
  | elem, n :: rest, hns => by
    refine (L.operand hns elem).bind fun ⟨n', type⟩ hns' => ?_
    have hmore : ∀ elem : Ty, Proceeds I P below true
        (do let r ← Analysis.arrayElems below elem rest; return (n' :: r.1, r.2))
        (arrayElemsParts below elem rest) (·.2.isSome) fun r => List.Forall₂ R (n :: rest) r.1 :=
      fun elem => (arrayElems elem (List.forall_mem_cons.1 hns).2).last fun _ hrest =>
        .pure rfl (.cons (List.forall₂_cons.1 hns').1 hrest)
    cases type with
    | none => exact .pure rfl hns'
    | some type =>
      dsimp only [Parts.given, Option.elim]
      split
      · exact hmore type
      · refine (L.check fun hI => accepts_judges hI _ _ _).following fun ok _ => ?_
        cases ok with
        | false => exact .pure rfl hns'
        | true => exact hmore elem

theorem array (h : Head) (expected : Ty) (hcs : ∀ c ∈ cs, P c) :
    Proceeds I P below true (Analysis.array below h expected cs) (arrayParts below expected cs)
      (·.2.isSome) fun r => List.Forall₂ R cs r.1 := by
  refine .seeing fun t _ => ?_
  dsimp only
  split
  · exact L.reject _ rfl rfl (L.rewriting.refl_all cs)
  · exact (L.arrayElems _ hcs).last fun _ hcs' => .pure (by simp) hcs'

theorem index (h : Head) (hcs : ∀ c ∈ cs, P c) (hgap : cs.length < 2 → Gap P) :
    Proceeds I P below true (Analysis.index below h cs) (indexParts below h cs) (·.2.isSome)
      fun r => List.Forall₂ R cs r.1 := by
  rcases cs with _ | ⟨base, _ | ⟨idx, rest⟩⟩
  · exact L.lacks (hgap (by simp)) _ rfl (L.rewriting.refl_all _)
  · exact L.lacks (hgap (by simp)) _ rfl (L.rewriting.refl_all _)
  · dsimp only [Analysis.index, indexParts]
    refine (L.operand hcs _).bind fun ⟨base', type⟩ hsame => ?_
    cases type with
    | none => exact .pure rfl hsame
    | some type =>
      dsimp only [Parts.given, Option.elim]
      refine (L.check fun hI => elementType_judges hI _ _).following fun elem _ => ?_
      cases elem with
      | none => exact .pure rfl hsame
      | some elem =>
        exact (L.indexExpr (hcs _ (by simp))).last fun _ hidx => .pure (by simp)
          (.cons (List.forall₂_cons.1 hsame).1 (.cons hidx (L.rewriting.refl_all rest)))

/-! ## Places and assignments -/

theorem memberPlace (loc : Location) (left right : Node)
    (hleft : Proceeds I P below true (Analysis.place below left) (placeParts below left) (·.2.isSome)
      fun r => R left r.1) :
    Proceeds I P below true (Analysis.memberPlace loc left (Analysis.place below left) right)
      (memberPlaceParts below left right) (·.2.isSome) fun r => R left r.1 := by
  unfold Analysis.memberPlace memberPlaceParts
  split
  · exact L.reject _ rfl rfl (L.rewriting.refl _)
  · rename_i r rcs rfs rb
    by_cases hr : r.kind = .ident
    · rw [if_pos hr, if_pos (show (Node.mk r rcs rfs rb).kind? = some .ident from congrArg some hr)]
      refine hleft.last fun r hl => ?_
      obtain ⟨left', p⟩ := r
      cases p with
      | none => exact .pure rfl hl
      | some p =>
        refine .symbols fun t _ => (L.check fun hI => fieldType_judges hI _ _ _).last fun field _ => ?_
        cases field with
        | none => exact .pure rfl hl
        | some field => exact .pure rfl hl
    · rw [if_neg hr, if_neg (show ¬(Node.mk r rcs rfs rb).kind? = some .ident from
        fun h => hr (Option.some.inj h))]
      exact L.reject _ rfl rfl (L.rewriting.refl _)

theorem elementPlace (loc : Location) (p : Place) {idx} (hidx : P idx) :
    Proceeds I P below true (Analysis.elementPlace below loc p idx) (elementPlaceParts loc p idx)
      (·.2.isSome) fun r => R idx r.1 := by
  refine (L.check fun hI => elementsPlace_judges hI loc p).following fun element _ => ?_
  cases element with
  | none => exact .pure rfl (L.rewriting.refl _)
  | some element => exact (L.indexExpr hidx).last fun _ hidx' => .pure (by simp) hidx'

theorem place (hP : Inherited P) : ∀ {n : Node}, P n → Proceeds I P below true
    (Analysis.place below n) (placeParts below n) (·.2.isSome) fun r => R n r.1
  | .absent, _ => L.reject _ rfl rfl (L.rewriting.refl _)
  | .mk h cs fs b, hn => by
    have hmissing : cs.length < h.kind.arity → Proceeds I P below true
        (Analysis.around h fs b (missingOperand h.loc cs (none : Option Place))) .none (·.2.isSome)
        fun r => R (.mk h cs fs b) r.1 := fun hlacks =>
      L.around h fs b (L.lacks ⟨_, hn, Nat.not_le.2 hlacks⟩ _ rfl (L.rewriting.refl_all cs))
    unfold Analysis.place placeParts
    cases hk : h.kind with
    | ident =>
      exact .symbols fun t _ => (L.check fun hI => entryPlace_judges hI _ _ _).last fun _ _ =>
        .pure rfl (L.rewriting.refl _)
    | path =>
      dsimp only
      split
      · exact .symbols fun t _ => (L.check fun hI => entryPlace_judges hI _ _ _).last fun _ _ =>
          .pure rfl (L.rewriting.refl _)
      · exact L.reject _ rfl rfl (L.rewriting.refl _)
    | dot =>
      rw [hk] at hmissing
      rcases cs with _ | ⟨left, _ | ⟨right, rest⟩⟩
      · exact hmissing (by simp [Kind.arity])
      · exact hmissing (by simp [Kind.arity])
      · exact (L.memberPlace _ _ _ (place hP (hP.pair hn (hk ▸ rfl)).1)).last fun _ hl =>
          .pure rfl (L.rewriting.operands (.cons hl (L.rewriting.refl_all _)))
    | index =>
      rw [hk] at hmissing
      rcases cs with _ | ⟨base, _ | ⟨idx, rest⟩⟩
      · exact hmissing (by simp [Kind.arity])
      · exact hmissing (by simp [Kind.arity])
      · refine (place hP (hP.pair hn (hk ▸ rfl)).1).bind fun ⟨base', p⟩ hbase => ?_
        cases p with
        | none => exact .pure rfl (L.rewriting.operands (.cons hbase (L.rewriting.refl_all _)))
        | some p =>
          exact (L.elementPlace _ p (hP.pair hn (hk ▸ rfl)).2).last fun _ hidx =>
            .pure rfl (L.rewriting.operands (.cons hbase (.cons hidx (L.rewriting.refl_all _))))
    | deref =>
      rw [hk] at hmissing
      dsimp only
      cases cs with
      | nil => exact hmissing (by simp [Kind.arity])
      | cons operand rest =>
        refine (L.operand (hP.operands hn (hk ▸ rfl)) _).last fun ⟨operand', type⟩ hcs' => ?_
        cases type with
        | none => exact .pure rfl (L.rewriting.operands hcs')
        | some type =>
          exact (L.check fun hI => pointeePlace_judges hI _ _ _).last fun _ _ =>
            .pure rfl (L.rewriting.operands hcs')
    | _ => exact L.reject _ rfl rfl (L.rewriting.refl _)

theorem storedValue (h : Head) (expected : Ty) (hvalue : P value) :
    Proceeds I P below true (Analysis.storedValue below h expected value)
      (storedValueParts h expected value) (·.2) fun r => R value r.1 := by
  refine .seeing fun t _ => ?_
  split
  · exact L.reject _ rfl rfl (L.rewriting.refl _)
  · exact L.exprOf hvalue _

/-- A target that is no place has been reported already. -/
theorem store (h : Head) (target : Option Place) (hvalue : P value) :
    Proceeds I P below target.isSome (Analysis.store below h target value)
      (storeParts h target value) (·.2) fun r => R value r.1 := by
  cases target with
  | none => exact .pure rfl (L.rewriting.refl _)
  | some p =>
    dsimp only [Analysis.store, storeParts, Parts.given, Option.elim]
    split
    · exact L.storedValue h _ hvalue
    · exact L.reject _ (by cases p.viaRef <;> rfl) rfl (L.rewriting.refl _)

end Level

/-- A step goes through its parts, keeps a property of states with its verdict, and if it accepts, the
variable with a name is marked last. -/
def Assigning (I : Bool → State → Prop) (P : Node → Prop) (below : ExprRule) (name : Option Ident)
    (m : Analysis (α × Bool)) (ps : Parts) (Q : α × Bool → Prop) : Prop :=
  ∀ s, I true s → (∃ s₁, Through below P s (ps s) s₁ ∧
    (m s).2 = if (m s).1.2 then name.elim s₁ s₁.marked else s₁) ∧ I (m s).1.2 (m s).2 ∧ Q (m s).1

namespace Assigning

variable {name : Option Ident} {m : Analysis (α × Bool)} {ps : Parts} {Q : α × Bool → Prop}

theorem judges (h : Assigning I P below name m ps Q) : Judges I true m (·.2) Q :=
  fun s hs => (h s hs).2

/-- Nothing is marked. -/
theorem of_unnamed (hm : Proceeds I P below true m ps (·.2) Q) : Assigning I P below none m ps Q :=
  fun s hs => ⟨⟨_, (hm s hs).1, (ite_self _).symm⟩, (hm s hs).2⟩

theorem of_rejected (hm : Proceeds I P below true m ps (·.2) Q) (hrejected : ∀ s, (m s).1.2 = false) :
    Assigning I P below name m ps Q :=
  fun s hs => ⟨⟨_, (hm s hs).1, by simp [hrejected s]⟩, (hm s hs).2⟩

theorem seeing {f : Symbols → Analysis (α × Bool)} {next : Symbols → Parts}
    (hf : ∀ t, Assigning I P below name (f t) (next t) Q) :
    Assigning I P below name (Analysis.symbols >>= f) (.seeing next) Q := fun s hs => hf _ s hs

/-- A warning before the step. -/
theorem warned (hI : Judging I) (loc : Location) {cause : Cause} (hc : cause.severity = .warning)
    (hm : Assigning I P below name m ps Q) :
    Assigning I P below name (report loc cause >>= fun _ => m)
      (.following (report loc cause) fun _ => ps) Q := by
  intro s hs
  obtain ⟨⟨s₁, hthrough, hstate⟩, hjudged⟩ := hm (report loc cause s).2 (hI.warning loc hc hs)
  have hnotes : s.Notes P (report loc cause s).2 :=
    @Reports.warning _ (s.notes_reports P) s true loc cause hc (.refl s)
  exact ⟨⟨s₁, hthrough.notes_left hnotes, hstate⟩, hjudged⟩

theorem andThen {β : Type} {g : α × Bool → β} {Q' : β × Bool → Prop}
    (hm : Assigning I P below name m ps Q) (hQ : ∀ r, Q r → Q' (g r, r.2)) :
    Assigning I P below name (do let r ← m; return (g r, r.2)) ps Q' :=
  fun s hs => ⟨(hm s hs).1, (hm s hs).2.1, hQ _ (hm s hs).2.2⟩

end Assigning

namespace Level

variable {n value : Node} {cs : List Node} (L : Level I R below)

include L

theorem storeName (h : Head) (name : Ident) (expected : Ty) (hvalue : P value) :
    Assigning I P below (some name) (Analysis.storeName below h name expected value)
      (storedValueParts h expected value) fun r => R value r.1 := by
  intro s hs
  have hstored := L.storedValue h expected hvalue s hs
  unfold Analysis.storeName
  rw [bind_apply]
  revert hstored
  obtain ⟨⟨value', _ | _⟩, s₁⟩ := Analysis.storedValue below h expected value s <;>
    rintro ⟨hthrough, hs₁, hv⟩
  · exact ⟨⟨s₁, hthrough, rfl⟩, hs₁, hv⟩
  · exact ⟨⟨s₁, hthrough, rfl⟩, L.judging.value name hs₁, hv⟩

theorem assignName (h target : Head) (hvalue : P value) :
    Assigning I P below (some target.name) (Analysis.assignName below h target value)
      (assignNameParts h target value) fun r => R value r.1 := by
  have hrejected : ∀ (loc : Location) {cause : Cause}, cause.isFault = true →
      Assigning I P below (some target.name) (do report loc cause; return (value, false)) .none
        fun r => R value r.1 := fun loc _ hc =>
    .of_rejected (L.reject loc hc rfl (L.rewriting.refl _)) fun _ => rfl
  refine .seeing fun t => ?_
  dsimp only
  cases t.lookup target.name with
  | none => exact hrejected _ rfl
  | some e =>
    obtain ⟨name, static, kind, loc⟩ := e
    cases kind with
    | var v =>
      dsimp only
      cases hassignable : t.assignable h.op target.name v with
      | error cause =>
        exact hrejected _ (by rcases assignable_cause hassignable with rfl | rfl <;> rfl)
      | ok expected =>
        have hstore := L.storeName h target.name expected hvalue
        dsimp only
        split
        · exact hstore.warned L.judging _ rfl
        · exact hstore
    | _ => exact hrejected _ rfl

/-- An assignment goes through its parts, and an accepted one to a name marks that last. -/
theorem assign {h : Head} (hP : Inherited P) (hk : h.kind = .assign) (hcs : ∀ c ∈ cs, P c)
    (hgap : cs.length < 2 → Gap P) (fs : List (Component Node)) (b : Node) :
    Assigning I P below (Node.mk h cs fs b).assigned? (Analysis.assign below h cs)
      (assignParts below h cs) fun r => List.Forall₂ R cs r.1 := by
  rcases cs with _ | ⟨target, _ | ⟨value, rest⟩⟩
  · exact .of_unnamed (L.lacks (hgap (by simp)) _ rfl (L.rewriting.refl_all _))
  · exact .of_unnamed (L.lacks (hgap (by simp)) _ rfl (L.rewriting.refl_all _))
  · have htarget := hcs target (.head _)
    have hvalue := hcs value (.tail _ (.head _))
    dsimp only [Analysis.assign, assignParts]
    split
    · rename_i hident
      have hname : (Node.mk h (target :: value :: rest) fs b).assigned? = some target.head.name := by
        simp [Node.assigned?, hk, hident]
      rw [hname]
      exact (L.assignName h target.head hvalue).andThen fun _ hv =>
        .cons (L.rewriting.refl _) (.cons hv (L.rewriting.refl_all rest))
    · rename_i hident
      have hname : (Node.mk h (target :: value :: rest) fs b).assigned? = none := by
        simp [Node.assigned?, hident]
      rw [hname]
      exact .of_unnamed ((L.place hP htarget).bind fun _ ht => (L.store h _ hvalue).last fun _ hv =>
        .pure rfl (.cons ht (.cons hv (L.rewriting.refl_all rest))))

/-! ## Components and arguments -/

/-- The components that are built are those put one after the other. -/
theorem components (fields : Fields) (owner : List Ident) :
    ∀ (done : List (Component Node)) {fs : List (Component Node)}, (∀ f ∈ fs, P f.value) →
      Proceeds I P below true (Analysis.components below fields owner done fs)
        (componentsParts below fields owner fs) (·.2.isSome)
        fun r => List.Forall₂ (Component.Lift R) fs r.1 ∧
          ∀ built, r.2 = some built → built = r.1.foldl (fun built f => putComponent f built) done
  | done, [], _ => .pure rfl ⟨.nil, by rintro _ ⟨⟩; rfl⟩
  | done, f :: rest, hfs => by
    obtain ⟨hf, hrest⟩ := List.forall_mem_cons.1 hfs
    unfold Analysis.components componentsParts
    cases fields.get? f.name with
    | none => exact L.reject _ rfl rfl ⟨L.rewriting.refl_fields _, nofun⟩
    | some type =>
      dsimp only [Parts.given, Option.elim]
      refine .seeing fun t _ => (L.exprOf hf _).bind fun ⟨value, ok⟩ hv => ?_
      have hf' : Component.Lift R f { f with value } := .withValue f hv
      cases ok with
      | false => exact .pure rfl ⟨.cons hf' (L.rewriting.refl_fields rest), nofun⟩
      | true =>
        exact (components fields owner _ hrest).last fun _ hrest' =>
          .pure rfl ⟨.cons hf' hrest'.1, hrest'.2⟩

theorem argument (path : List Ident) (param : Ty) {arg} (harg : P arg) :
    Proceeds I P below true (Analysis.argument below path param arg) (argumentParts path param arg)
      (·.2) fun r => R arg r.1 := by
  unfold Analysis.argument argumentParts
  split
  · exact (L.expr harg _).last fun _ harg' => .pure rfl harg'
  · exact .seeing fun t _ => L.exprOf harg _

theorem arguments (path : List Ident) : ∀ (params : List Ty) {args : List Node}, (∀ n ∈ args, P n) →
    Proceeds I P below true (Analysis.arguments below path params args)
      (argumentsParts below path params args) (·.2) fun r => List.Forall₂ R args r.1
  | _, [], _ => .pure rfl .nil
  | params, arg :: rest, hargs => by
    obtain ⟨harg, hrest⟩ := List.forall_mem_cons.1 hargs
    refine (L.argument path _ harg).bind fun ⟨arg', ok⟩ harg' => ?_
    cases ok with
    | false => exact .pure rfl (.cons harg' (L.rewriting.refl_all rest))
    | true =>
      exact (arguments path params.tail hrest).last fun _ hrest' => .pure rfl (.cons harg' hrest')

omit L in
theorem param?_name {sig : Signature} {name p} (h : sig.param? name = some p) :
    name ∈ sig.params.map (·.name) := by
  have hmem := List.mem_of_find?_eq_some h
  have hname : p.1.name = name := by simpa using List.find?_some h
  exact List.mem_map.2 ⟨p.1, List.fst_mem_of_mem_zipIdx hmem, hname⟩

/-- Accepted arguments all have the names of parameters. -/
theorem argumentsByName (path : List Ident) (sig : Signature) :
    ∀ {fs : List (Component Node)}, (∀ f ∈ fs, P f.value) →
      Proceeds I P below true (Analysis.argumentsByName below path sig fs)
        (argumentsByNameParts below path sig fs) (·.2)
        fun r => List.Forall₂ (Component.Lift R) fs r.1 ∧
          (r.2 = true → ∀ f ∈ r.1, f.name ∈ sig.params.map (·.name))
  | [], _ => .pure rfl ⟨.nil, fun _ => nofun⟩
  | f :: rest, hfs => by
    obtain ⟨hf, hrest⟩ := List.forall_mem_cons.1 hfs
    unfold Analysis.argumentsByName argumentsByNameParts
    cases hparam : sig.param? f.name with
    | none => exact L.reject _ rfl rfl ⟨L.rewriting.refl_fields _, nofun⟩
    | some p =>
      dsimp only [Parts.given, Option.elim]
      refine (L.argument path _ hf).bind fun ⟨value, ok⟩ hv => ?_
      have hf' : Component.Lift R f { f with value } := .withValue f hv
      cases ok with
      | false => exact .pure rfl ⟨.cons hf' (L.rewriting.refl_fields rest), nofun⟩
      | true =>
        refine (argumentsByName path sig hrest).last fun ⟨rest', ok⟩ ⟨hrest', hnames⟩ => ?_
        refine .pure rfl ⟨.cons hf' hrest', fun hok g hg => ?_⟩
        rcases List.mem_cons.1 hg with rfl | hg
        · exact param?_name hparam
        · exact hnames hok g hg

/-! ## What chains name -/

/-- A call is kept with what is made of its arguments; accepted arguments are those of the call in
their order, or in the order of the parameters. -/
theorem callArguments (path : List Ident) (sig : Signature) (h : Head) {fs} (b : Node)
    (hcs : ∀ c ∈ cs, P c) (hfs : ∀ f ∈ fs, P f.value) :
    Proceeds I P below true (Analysis.callArguments below path sig h cs fs b)
      (callArgumentsParts below path sig h cs fs) (·.2.isSome) fun r => R (.mk h cs fs b) r.1 ∧
      ∀ args, r.2 = some args → (h.named = false ∧ List.Forall₂ R cs args) ∨
        (h.named = true ∧ ∃ fs', List.Forall₂ (Component.Lift R) fs fs' ∧
          (∀ f ∈ fs', f.name ∈ sig.params.map (·.name)) ∧
          List.Forall₂ (fun p x => givenValue? fs' p.name = some x) sig.params args) := by
  have hR := L.rewriting
  unfold Analysis.callArguments callArgumentsParts
  split
  · rename_i hnamed
    refine (L.argumentsByName path sig hfs).last fun ⟨fs', ok⟩ ⟨hfs', hnames⟩ => ?_
    have hn : R (.mk h cs fs b) (.mk h cs fs' b) := hR.keep (hR.refl_all cs) hfs' (hR.refl b)
    cases ok with
    | false => exact .pure rfl ⟨hn, nofun⟩
    | true =>
      exact (L.check fun hI => inOrder_judges hI _ path fs' sig.params).last fun args hargs =>
        .pure rfl ⟨hn, fun args' he => .inr ⟨hnamed, fs', hfs', hnames rfl, hargs args' he⟩⟩
  · rename_i hnamed
    refine (L.check fun hI => countArguments_judges hI _ _ _ _).following fun ok _ => ?_
    cases ok with
    | false => exact .pure rfl ⟨hR.refl _, nofun⟩
    | true =>
      refine (L.arguments path _ hcs).last fun ⟨cs', ok⟩ hcs' => .pure (by simp)
        ⟨hR.operands hcs', fun args he => .inl ⟨by simpa using hnamed, ?_⟩⟩
      cases ok with
      | false => cases he
      | true => cases he; exact hcs'

/-- The payload of an arm has the arguments as components, under the names of their places. -/
theorem tuplePayload (path : List Ident) : ∀ (i : Nat) (types : List Ty) {vs : List Node},
    (∀ v ∈ vs, P v) → vs.length = types.length →
    Proceeds I P below true (Analysis.tuplePayload below path i types vs)
      (tuplePayloadParts below path types vs) (·.2.isSome)
      fun r => List.Forall₂ R vs r.1 ∧
        ∀ payload, r.2 = some payload → payload.map (·.value) = r.1 ∧
          ∀ f ∈ payload, ∃ i, f.name = componentName i
  | _, _ :: _, [], _, h => by simp at h
  | _, [], _ :: _, _, h => by simp at h
  | _, [], [], _, _ => .pure rfl ⟨.nil, by rintro _ ⟨⟩; exact ⟨rfl, nofun⟩⟩
  | i, type :: types, v :: rest, hvs, h => by
    obtain ⟨hv, hrest⟩ := List.forall_mem_cons.1 hvs
    refine .seeing fun t _ => (L.exprOf hv _).bind fun ⟨v', ok⟩ hv' => ?_
    cases ok with
    | false => exact .pure rfl ⟨.cons hv' (L.rewriting.refl_all rest), nofun⟩
    | true =>
      refine (tuplePayload path (i + 1) types hrest (by simpa using h)).last
        fun ⟨rest', payload⟩ ⟨hrest', hpayload⟩ =>
          .pure (by simp) ⟨.cons hv' hrest', fun built hb => ?_⟩
      obtain ⟨p, rfl, rfl⟩ := Option.map_eq_some_iff.1 hb
      obtain ⟨hvalues, hnames⟩ := hpayload p rfl
      exact ⟨by simp [hvalues], List.forall_mem_cons.2 ⟨⟨i, rfl⟩, hnames⟩⟩

end Level

theorem loc_withTail {n : Node} {c : Chain} (hchain : n.chain? = some c) {tail tail' : Node}
    (htail : c.tail = some tail) (hloc : tail'.loc = tail.loc) : (n.withTail tail').loc = n.loc := by
  obtain ⟨path, _⟩ := c
  dsimp only at htail
  subst htail
  rcases (Node.chain?_eq_some_iff.1 hchain).end_cases with ⟨rfl, hw⟩ | ⟨h, left, rest, fs, b, rfl, hw⟩
  · rw [hw, hloc]
  · rw [hw]; rfl

/-- An accepted payload encodes what is given to a constructor at the end of a chain. -/
structure Encoding (I : State → Prop) (R : Node → Node → Prop) (c : Chain) (loc : Location)
    (built : List (Component Node)) : Prop where
  parts : ∀ f ∈ built, NamedBy c.tail f ∧ ∃ x ∈ partsOf c.tail, R x f.value
  replacement : ∀ owner path arm ordinal,
    Replacement (List.Forall₂ R) (List.Forall₂ (Component.Lift R)) (InParamOrder I c.path)
      c.tail loc (encodeArm loc owner path arm ordinal built)

namespace Level

variable {n : Node} {c : Chain} (L : Level I R below) (hP : Inherited P) (hn : P n)
  (hchain : n.chain? = some c)

include L hP hn hchain

/-- What is given to a constructor is kept, and an accepted payload encodes it. -/
theorem constructorPayload (payload : Payload) :
    Proceeds I P below true (Analysis.constructorPayload below n c payload)
      (payloadParts below c payload) (·.2.isSome) fun r => R n r.1 ∧ r.1.loc = n.loc ∧
        ∀ built, r.2 = some built → Encoding (I true) R c n.loc built := by
  have hR := L.rewriting
  have hrejected : ∀ {cause : Cause}, cause.isFault = true →
      Proceeds I P below true (do report n.loc cause; return (n, none)) .none
        (fun r : Node × Option (List (Component Node)) => r.2.isSome) fun r => R n r.1 ∧
          r.1.loc = n.loc ∧ ∀ built, r.2 = some built → Encoding (I true) R c n.loc built :=
    fun hc => L.reject _ hc rfl ⟨hR.refl n, rfl, nofun⟩
  obtain ⟨path, tail⟩ := c
  cases payload with
  | unknown => exact hrejected rfl
  | common =>
    dsimp only [Analysis.constructorPayload, payloadParts]
    split
    · rename_i hnothing
      exact .pure rfl ⟨hR.refl n, rfl, by rintro _ ⟨⟩; exact ⟨nofun, fun _ _ _ _ => .emptyArm hnothing⟩⟩
    · exact hrejected rfl
  | tuple types =>
    rcases tail with _ | _ | ⟨h, cs, fs, b⟩
    · exact hrejected rfl
    · exact hrejected rfl
    · dsimp only [Analysis.constructorPayload, payloadParts]
      split
      · exact hrejected rfl
      · rename_i hcall
        obtain ⟨hcall, hnamed⟩ := not_or.1 hcall
        split
        · exact hrejected rfl
        · rename_i hlen
          have hcs := hP.operands (hP.tail hn hchain) (not_not.1 hcall ▸ rfl)
          refine (L.tuplePayload path 0 types hcs (not_not.1 hlen)).last
            fun ⟨cs', built⟩ ⟨hcs', hbuilt⟩ => .pure rfl
              ⟨hR.withTail hchain (hR.operands hcs'), loc_withTail hchain rfl rfl, ?_⟩
          intro built' he
          obtain ⟨hvalues, hnames⟩ := hbuilt built' he
          refine ⟨fun f hf => ⟨.inl (hnames f hf), ?_⟩, fun owner path arm ordinal => ?_⟩
          · exact parts_of_operands hcs' _ (hvalues ▸ List.mem_map_of_mem hf)
          · exact .tupleArm (not_not.1 hcall) (by simpa using hnamed) (by rwa [hvalues])
  | struct fields =>
    rcases tail with _ | _ | ⟨h, cs, fs, b⟩
    · exact hrejected rfl
    · exact hrejected rfl
    · dsimp only [Analysis.constructorPayload, payloadParts]
      split
      · exact hrejected rfl
      · rename_i hlit
        have hfs := hP.components (hP.tail hn hchain) (.inr (not_not.1 hlit))
        refine (L.components fields path [] hfs).last fun ⟨fs', built⟩ ⟨hfs', hbuilt⟩ => .pure rfl
          ⟨hR.withTail hchain (hR.keep (hR.refl_all cs) hfs' (hR.refl b)),
            loc_withTail hchain rfl rfl, fun built' he => ?_⟩
        have hkept : built'.Perm (kept fs') := by
          rw [hbuilt built' he]
          exact foldl_putComponent_perm fs'
        exact ⟨fun f hf => parts_of_given hfs' f (mem_of_mem_kept (hkept.subset hf)),
          fun _ _ _ _ => .structArm (not_not.1 hlit) hfs' hkept⟩

theorem moduleVariable (e : SymbolEntry) (v : Variable) :
    Proceeds I P below true (Analysis.moduleVariable below n c e v) (moduleVariableParts c v)
      (·.2.isSome) fun r => R n r.1 := by
  have hR := L.rewriting
  obtain ⟨path, _ | _ | ⟨h, _ | ⟨target, _ | ⟨value, more⟩⟩, fs, b⟩⟩ := c
  · exact (L.check fun hI => readEntry_judges hI _ _ _).last fun _ _ => .pure rfl (hR.refl n)
  · exact L.reject _ rfl rfl (hR.refl n)
  · exact L.reject _ rfl rfl (hR.refl n)
  · exact L.reject _ rfl rfl (hR.refl n)
  · dsimp only [Analysis.moduleVariable, moduleVariableParts]
    split
    · rename_i hk
      have hvalue := (hP.pair (hP.tail hn hchain) (hk ▸ rfl)).2
      exact (L.store h (some _) hvalue).last fun _ hv => .pure (by simp [unitIf])
        (hR.withTail hchain (hR.operands (.cons (hR.refl _) (.cons hv (hR.refl_all more)))))
    · exact L.reject _ rfl rfl (hR.refl n)

variable (hkind : n.kind?.any Kind.isChain)

include hkind

theorem call {sig} (hsig : ∃ s e, I true s ∧ s.table.resolve c.path = some e ∧ e.kind = .func sig) :
    Proceeds I P below true (Analysis.call below n c sig) (callParts below c sig) (·.2.isSome)
      fun r => R n r.1 := by
  have hR := L.rewriting
  obtain ⟨s₀, e, hs₀, he, hfunc⟩ := hsig
  obtain ⟨path, _ | _ | ⟨h, cs, fs, b⟩⟩ := c
  · exact L.reject _ rfl rfl (hR.refl n)
  · exact L.reject _ rfl rfl (hR.refl n)
  · have htail := hP.tail hn hchain
    dsimp only [Analysis.call, callParts]
    split
    · exact L.reject _ rfl rfl (hR.refl n)
    · rename_i hcall
      have hcall : h.kind = .call := not_not.1 hcall
      refine L.unsafeAllowed.following fun allowed _ => ?_
      split
      · exact L.reject _ rfl rfl (hR.refl n)
      · refine (L.callArguments path sig h b (hP.operands htail (hcall ▸ rfl))
          (hP.components htail (.inl hcall))).last fun ⟨tail, args⟩ ⟨htail', hargs⟩ => ?_
        cases args with
        | none => exact .pure rfl (hR.withTail hchain htail')
        | some args =>
          refine .symbols fun t ht => .pure rfl (hR.replace hkind hchain ?_ ?_)
          on_goal 2 =>
            obtain ⟨s, hs, rfl⟩ := ht
            refine ⟨s₀, s, e, hs₀, hs, he, .call hfunc ?_⟩
            rcases hargs args rfl with ⟨-, hcs⟩ | ⟨-, fs', hfs, -, horder⟩
            · exact parts_of_operands hcs
            · intro a ha
              obtain ⟨p, -, hp⟩ := exists_of_forall₂_right horder ha
              obtain ⟨f, hf, -, rfl⟩ := givenValue?_eq_some hp
              exact (parts_of_given hfs f (mem_of_mem_kept hf)).2
          rcases hargs args rfl with ⟨hnamed, hcs⟩ | ⟨hnamed, fs', hfs, hnames, horder⟩
          · exact .call hcall hnamed hcs
          · exact .callByName hcall hnamed hfs ⟨s₀, e, sig, hs₀, he, hfunc, hnames, horder⟩

theorem literal {fields} (union : Bool)
    (hrecord : ∃ s e, I true s ∧ s.table.resolve c.path = some e ∧
      (e.kind = .structDef fields ∨ e.kind = .unionDef fields)) :
    Proceeds I P below true (Analysis.literal below n c fields union)
      (literalParts below c fields union) (·.2.isSome) fun r => R n r.1 := by
  have hR := L.rewriting
  obtain ⟨s₀, e, hs₀, he, hk⟩ := hrecord
  obtain ⟨path, _ | _ | ⟨h, cs, fs, b⟩⟩ := c
  · exact L.reject _ rfl rfl (hR.refl n)
  · exact L.reject _ rfl rfl (hR.refl n)
  · dsimp only [Analysis.literal, literalParts]
    split
    · exact L.reject _ rfl rfl (hR.refl n)
    · rename_i hlit
      have hlit : h.kind = .lit := not_not.1 hlit
      have hfs := hP.components (hP.tail hn hchain) (.inr hlit)
      refine L.unsafeAllowed.following fun allowed _ => ?_
      split
      · exact L.reject _ rfl rfl (hR.refl n)
      · refine (L.components fields path [] hfs).last fun ⟨fs', built⟩ ⟨hfs', hbuilt⟩ => ?_
        cases built with
        | none =>
          exact .pure rfl (hR.withTail hchain (hR.keep (hR.refl_all cs) hfs' (hR.refl b)))
        | some built =>
          have hkept : built.Perm (kept fs') := by
            rw [hbuilt built rfl]
            exact foldl_putComponent_perm fs'
          refine .symbols fun t ht =>
            .pure rfl (hR.replace hkind hchain (.literal hlit hfs' hkept) ?_)
          obtain ⟨s, hs, rfl⟩ := ht
          exact ⟨s₀, s, e, hs₀, hs, he, .record hk fun f hf =>
            parts_of_given hfs' f (mem_of_mem_kept (hkept.subset hf))⟩

theorem construct {owner payload} {ordinal : Int}
    (harm : ∃ s e, I true s ∧ s.table.resolve c.path = some e ∧
      e.kind = .variantArm owner payload ordinal) :
    Proceeds I P below true (Analysis.construct below n c owner payload ordinal)
      (payloadParts below c payload) (·.2.isSome) fun r => R n r.1 := by
  have hR := L.rewriting
  obtain ⟨s₀, e, hs₀, he, hk⟩ := harm
  refine (L.constructorPayload hP hn hchain payload).last fun ⟨n', built⟩ ⟨hn', hloc, hbuilt⟩ => ?_
  cases built with
  | none => exact .pure rfl hn'
  | some built =>
    obtain ⟨hparts, hbuilt⟩ := hbuilt built rfl
    dsimp only
    split
    · exact L.reject _ rfl rfl hn'
    · rename_i hfits
      refine .symbols fun t ht => .pure rfl (hR.replace hkind hchain ?_ ?_)
      · rw [hloc]
        exact hbuilt _ _ _ _
      · obtain ⟨s, hs, rfl⟩ := ht
        exact ⟨s₀, s, e, hs₀, hs, he, .arm hk (by simpa using hfits) hparts⟩

omit hP hn in
theorem enumNumber {owner} {value : Int}
    (hvalue : ∃ s e, I true s ∧ s.table.resolve c.path = some e ∧ e.kind = .enumValue owner value) :
    Proceeds I P below true (Analysis.enumNumber n c value) .none (·.2.isSome) fun r => R n r.1 := by
  obtain ⟨path, tail⟩ := c
  obtain ⟨s₀, e, hs₀, he, hk⟩ := hvalue
  unfold Analysis.enumNumber
  split
  · exact L.reject _ rfl rfl (L.rewriting.refl n)
  · rename_i htail
    obtain rfl : tail = none := by simpa using htail
    refine .symbols fun t ht => .pure rfl (L.rewriting.replace hkind hchain .number ?_)
    obtain ⟨s, hs, rfl⟩ := ht
    exact ⟨s₀, s, e, hs₀, hs, he, .number hk⟩

theorem named {e} (he : ∃ s, I true s ∧ s.table.resolve c.path = some e) :
    Proceeds I P below true (Analysis.named below n c e) (namedParts below c e) (·.2.isSome)
      fun r => R n r.1 := by
  obtain ⟨s, hs, he⟩ := he
  unfold Analysis.named namedParts
  cases hk : e.kind with
  | enumValue => exact L.enumNumber hchain hkind ⟨s, e, hs, he, hk⟩
  | variantArm => exact L.construct hP hn hchain hkind ⟨s, e, hs, he, hk⟩
  | structDef => exact L.literal hP hn hchain hkind _ ⟨s, e, hs, he, .inl hk⟩
  | unionDef => exact L.literal hP hn hchain hkind _ ⟨s, e, hs, he, .inr hk⟩
  | func => exact L.call hP hn hchain hkind ⟨s, e, hs, he, hk⟩
  | var v => exact L.moduleVariable hP hn hchain e v
  | _ => exact L.reject _ rfl rfl (L.rewriting.refl n)

omit hchain hkind hn in
theorem member {cs : List Node} (h : Head) (hcs : ∀ c ∈ cs, P c) (hgap : cs.length < 2 → Gap P) :
    Proceeds I P below true (Analysis.member below h cs) (memberParts below h cs) (·.2.isSome)
      fun r => List.Forall₂ R cs r.1 := by
  have hR := L.rewriting
  rcases cs with _ | ⟨left, _ | ⟨right, rest⟩⟩
  · exact L.lacks (hgap (by simp)) _ rfl (hR.refl_all _)
  · exact L.lacks (hgap (by simp)) _ rfl (hR.refl_all _)
  have hright : P right := hcs right (.tail _ (.head _))
  cases right with
  | absent => exact L.reject _ rfl rfl (hR.refl_all _)
  | mk r rcs rfs rb =>
    have hmissing : rcs.length < r.kind.arity → Gap P := fun hlacks =>
      ⟨_, hright, Nat.not_le.2 hlacks⟩
    dsimp only [Analysis.member, memberParts]
    cases hk : r.kind with
    | ident =>
      refine (L.operand hcs _).last fun ⟨left', type⟩ hcs' => ?_
      cases type with
      | none => exact .pure rfl hcs'
      | some type =>
        exact (L.check fun hI => fieldType_judges hI _ _ _).last fun _ _ => .pure rfl hcs'
    | assign =>
      rw [hk] at hmissing
      rcases rcs with _ | ⟨target, _ | ⟨value, more⟩⟩
      · exact L.lacks (hmissing (by simp [Kind.arity])) _ rfl (hR.refl_all _)
      · exact L.lacks (hmissing (by simp [Kind.arity])) _ rfl (hR.refl_all _)
      · exact (L.memberPlace _ _ _ (L.place hP (hcs left (.head _)))).bind fun _ hl =>
          (L.store r _ (hP.pair hright (hk ▸ rfl)).2).last fun _ hv => .pure (by simp [unitIf])
            (.cons hl (.cons (hR.operands (.cons (hR.refl _) (.cons hv (hR.refl_all more))))
              (hR.refl_all rest)))
    | call | lit =>
      -- rejected once the value before it was accepted
      refine (L.operand hcs _).last fun ⟨left', type⟩ hcs' => ?_
      cases type with
      | none => exact .pure rfl hcs'
      | some type => exact .symbols fun t _ => L.reject _ rfl rfl hcs'
    | _ => exact L.reject _ rfl rfl (hR.refl_all _)

omit hchain in
theorem access : Proceeds I P below true (Analysis.access below n) (accessParts below n) (·.2.isSome)
    fun r => R n r.1 := by
  refine .seeing fun t ht => ?_
  split
  · rename_i hmember
    have hgap : n.children.length < 2 → Gap P := fun hlacks =>
      ⟨n, hn, fun hsupplied => absurd (hsupplied.arity hmember.1) (Nat.not_le.2 hlacks)⟩
    exact (L.member hP n.head (hP.children hn hmember.1 rfl) hgap).last fun _ hcs =>
      .pure rfl (L.rewriting.withChildren hcs)
  · cases hchain : n.chain? with
    | none => exact L.reject _ rfl rfl (L.rewriting.refl n)
    | some c =>
      dsimp only [Parts.given, Option.elim]
      cases he : t.resolve c.path with
      | none => exact L.reject _ rfl rfl (L.rewriting.refl n)
      | some e =>
        obtain ⟨s, hs, rfl⟩ := ht
        exact L.named hP hn hchain hkind ⟨s, hs, he⟩

/-! ## Expressions -/

omit hchain hkind in
/-- An expression other than an assignment goes through its parts and is related to its outcome. -/
theorem exprStep (expected : Ty) (hassign : n.kind? ≠ some .assign) :
    Proceeds I P below true (Analysis.exprStep below expected n) (exprParts below expected n)
      (·.2.isSome) fun r => R n r.1 := by
  cases n with
  | absent => exact L.lacks ⟨_, hn, id⟩ _ rfl (L.rewriting.refl _)
  | mk h cs fs b =>
    have hcs : ∀ {kind : Kind}, h.kind = kind → kind.encloses = false → ∀ c ∈ cs, P c :=
      fun hk hinside => hP.operands hn (hk ▸ hinside)
    have hgap : ∀ {kind : Kind}, h.kind = kind → cs.length < kind.arity → Gap P :=
      fun hk hlacks => ⟨_, hn, Nat.not_le.2 (hk ▸ hlacks)⟩
    have hsame : ∀ type : Ty, Proceeds I P below true (pure (Node.mk h cs fs b, some type)) .none
        (·.2.isSome) fun r => R (.mk h cs fs b) r.1 := fun _ => .pure rfl (L.rewriting.refl _)
    have haccess : h.kind.isChain = true → Proceeds I P below true
        (Analysis.access below (.mk h cs fs b)) (accessParts below (.mk h cs fs b)) (·.2.isSome)
        fun r => R (.mk h cs fs b) r.1 := fun hk => L.access hP hn (by simpa [Node.kind?] using hk)
    dsimp only [Analysis.exprStep, exprParts]
    cases hk : h.kind with
    | int | float => exact .symbols fun t _ => hsame _
    | str | bool | literal | typedCall => exact hsame _
    | ident =>
      exact (L.check fun hI => readName_judges hI h).last fun _ _ => .pure rfl (L.rewriting.refl _)
    | binary => exact L.around h fs b (L.binary h expected (hcs hk rfl) (hgap hk))
    | unary => exact L.around h fs b (L.unary h expected (hcs hk rfl) (hgap hk))
    | ref => exact L.around h fs b (L.borrow h expected (hcs hk rfl) (hgap hk))
    | deref => exact L.around h fs b (L.deref h (hcs hk rfl) (hgap hk))
    | assign => exact absurd (congrArg some hk) hassign
    | call | lit | dot | path => exact haccess (hk ▸ rfl)
    | tuple => exact L.around h fs b (L.tuple expected (hcs hk rfl))
    | array => exact L.around h fs b (L.array h expected (hcs hk rfl))
    | index => exact L.around h fs b (L.index h (hcs hk rfl) (hgap hk))
    | cast => exact L.around h fs b (L.cast h (hcs hk rfl) (hgap hk))
    | _ => exact L.reject _ rfl rfl (L.rewriting.refl _)

end Level

/-! ## What expressions go through -/

/-- Of the level below nothing is asked. -/
theorem trivial_level (below : ExprRule) : Level (fun _ _ => True) (fun _ _ => True) below where
  judging := ⟨⟨fun _ _ _ _ => trivial, fun _ _ _ _ => trivial⟩, fun _ _ => trivial,
    fun _ _ _ => trivial, fun _ _ => trivial⟩
  rewriting := trivial_rewriting _
  judges := fun _ _ _ _ => ⟨trivial, trivial⟩

theorem exprOf_yields {n} (hn : P n) (type : Ty) :
    Yields below P (exprOf below type n) (.expr n type) :=
  ((trivial_level below).exprOf hn type).yields

/-- An expression other than an assignment goes through its parts. -/
theorem exprStep_yields (hP : Inherited P) {n : Node} (expected : Ty) (hn : P n)
    (hassign : n.kind? ≠ some .assign) :
    Yields below P (exprStep below expected n) (exprParts below expected n) :=
  ((trivial_level below).exprStep hP hn expected hassign).yields

variable (below) in
/-- An assignment goes through its parts, and an accepted one to a name marks that last. -/
theorem assign_through (hP : Inherited P) {h : Head} (hk : h.kind = .assign) {cs : List Node}
    (hcs : ∀ c ∈ cs, P c) (hgap : cs.length < 2 → Gap P) (fs : List (Component Node)) (b : Node)
    (s : State) : ∃ s₁, Through below P s (assignParts below h cs s) s₁ ∧
      (assign below h cs s).2 = if (assign below h cs s).1.2
        then (Node.mk h cs fs b).assigned?.elim s₁ s₁.marked else s₁ :=
  ((trivial_level below).assign hP hk hcs hgap fs b s trivial).1

/-! ## What analysis makes of expressions -/

theorem Level.assign_judges (L : Level I R below) {h : Head} (hk : h.kind = .assign)
    (cs : List Node) : Judges I true (Analysis.assign below h cs) (·.2) fun r => List.Forall₂ R cs r.1 :=
  (L.assign hereditary_true.inherited hk (fun _ _ => trivial) (fun _ => ⟨.absent, trivial, id⟩) []
    .absent).judges

/-- Analysis of an expression relates it to its outcome. -/
theorem exprStep_judges (L : Level I R below) (n : Node) (expected : Ty) :
    Judges I true (exprStep below expected n) (·.2.isSome) fun r => R n r.1 := by
  by_cases hk : n.kind? = some .assign
  · cases n with
    | absent => cases hk
    | mk h cs fs b =>
      have hassign : h.kind = .assign := Option.some.inj hk
      simp only [exprStep, hassign]
      exact (L.assign_judges hassign cs).bind fun _ hcs =>
        .pure (by simp [unitIf]) (L.rewriting.operands hcs)
  · exact (L.exprStep hereditary_true.inherited trivial expected hk).judges

theorem exprAt_judges (hI : Judging I) (hR : Rewriting (I true) R) (cfg : Config) :
    ∀ k, ExprRule.Judges I R (exprAt cfg k)
  | 0 => fun n _ _ hs => ⟨hI.refuse cfg n.loc hs, hR.refl n⟩
  | k + 1 => exprStep_judges ⟨hI, hR, exprAt_judges hI hR cfg k⟩

/-! ## Properties that do not depend on verdicts -/

section Relates

variable {I : State → Prop}

theorem exprOf_relates (hI : Stable I) (hR : Rewriting I R) (hb : ExprRule.Relates I R below)
    (type : Ty) (n : Node) : Ensures I (exprOf below type n) fun r => R n r.1 :=
  (Level.exprOf (P := fun _ => True) ⟨hI.judging, hR, hb⟩ trivial type).judges

/-- Analysis of an expression relates it to its outcome, at every level. -/
theorem exprAt_relates (hI : Stable I) (hR : Rewriting I R) (cfg : Config) (k : Nat) :
    ExprRule.Relates I R (exprAt cfg k) :=
  exprAt_judges hI.judging hR cfg k

end Relates

end TreeSema.Analysis
