import TreeSema.Proofs.Accept.Rules

/-!
# Operands that are analysed without errors are accepted

One statement for each rule: a run of the rule that ends in a clean state is an instance of the
rules of acceptance.

* `ExprRule.Honest`: what is known of the analysis of the expressions below.
* `binary_passes`, `index_passes`, …: operators, tuples, arrays, indices and casts.
* `place_passes`, `assign_passes`: targets and values of assignments.
* `components_passes`, `arguments_passes`: what is given to a literal or a call.
-/
namespace TreeSema.Analysis

/-- Without errors an expression is accepted by a judgement, and nothing but marks is changed. -/
structure ExprRule.Honest (B : Judgement) (rule : ExprRule) : Prop where
  gives : ∀ n expected, Passes (rule n expected) fun s r s' =>
    Accepted (fun n' type => B s n expected n' type s') r
  marks : ∀ n expected (s : State), s.Marks (rule n expected s).2

variable {below : ExprRule} {B : Judgement}

namespace ExprRule.Honest

variable (hb : below.Honest B)

include hb

theorem judges (s : State) : ExprRule.Judges (fun _ => s.Marks) (fun _ _ => True) below :=
  fun n expected s₁ hs => ⟨hs.trans (hb.marks n expected s₁), trivial⟩

/-- What a rule over such expressions does is to mark, if it does so whenever they do. -/
theorem marks_of {α : Type} {m} {ok : α → Bool} {P : α → Prop}
    (h : ∀ s : State, Level (fun _ => s.Marks) (fun _ _ => True) below →
      Analysis.Judges (fun _ => s.Marks) true m ok P) (s : State) : s.Marks (m s).2 :=
  (h s ⟨(marks_stable s).judging, trivial_rewriting _, hb.judges s⟩ s (.refl s)).1

end ExprRule.Honest

section Rules

variable (hb : below.Honest B)

include hb

/-! ## Operands -/

theorem exprOf_passes (type : Ty) (n : Node) : Passes (exprOf below type n) fun s r s' =>
    Approved (fun n' => OfType B type s n n' s') r := by
  refine (hb.gives n type).accepted (fun _ => .pure _) fun n' actual => ?_
  exact accepts_bind (.pure _) (.pure fun s₁ _ hc s hn => .mk ⟨actual, hn, hc⟩)

theorem indexExpr_passes (n : Node) : Passes (indexExpr below n) fun s r s' =>
    Approved (fun n' => AsIndex B s n n' s') r := by
  refine (hb.gives n _).accepted (fun _ => .pure _) fun n' actual => .symbols fun t => ?_
  split
  · rename_i hint
    exact .pure fun s₁ _ ht s hn => .mk ⟨actual, hn, ht ▸ hint⟩
  · exact .rejects _ rfl _

theorem conditions_passes : ∀ ns : List Node, Passes (conditions below ns) fun s r s' =>
    Approved (fun ns' => Conditions B s ns ns' s') r
  | [] => .pure fun _ _ => .mk .nil
  | n :: rest => by
    refine (exprOf_passes hb _ n).approved (fun _ => .pure _) fun n' => ?_
    refine (conditions_passes rest).approved (fun _ => .pure _) fun rest' => ?_
    exact .pure fun s₂ _ s₁ hrest s hn => .mk (.cons hn hrest)

theorem agreeing_passes (first second : Node) (expected : Ty) :
    Passes (agreeing below first second expected) fun s r s' => ∃ first' second' type,
      r = (first', second', some type) ∧
      Agreeing B s first second expected first' second' type s' := by
  refine (hb.gives first expected).accepted (fun _ => .pure _) fun first' type => ?_
  refine (hb.gives second type).accepted (fun _ => .pure _) fun second' other => ?_
  refine accepts_bind (.pure _) (.pure fun s₂ _ hc s₁ hs s hf => ?_)
  exact ⟨first', second', type, rfl, s₁, other, hf, hs, hc⟩

theorem operandPair_passes (left right : Node) (expected : Ty) :
    Passes (operandPair below left right expected) fun s r s' => ∃ left' right' type,
      r = (left', right', some type) ∧
      OperandPair B s left right expected left' right' type s' := by
  unfold operandPair
  split
  · rename_i hopen
    refine (agreeing_passes hb right left expected).bind fun ⟨right', left', type⟩ => ?_
    refine .pure fun s₁ _ s hpair => ?_
    obtain ⟨_, _, type, he, hpair⟩ := hpair
    cases he
    exact ⟨left', right', type, rfl, by rw [OperandPair, if_pos hopen]; exact hpair⟩
  · rename_i hopen
    refine (agreeing_passes hb left right expected).mono fun s r s' h => ?_
    obtain ⟨left', right', type, rfl, hpair⟩ := h
    exact ⟨left', right', type, rfl, by rw [OperandPair, if_neg hopen]; exact hpair⟩

theorem tupleElems_passes : ∀ (hints : List Ty) (ns : List Node),
    Passes (tupleElems below hints ns) fun s r s' =>
      Accepted (fun ns' types => TupleElems B s hints ns ns' types s') r
  | _, [] => .pure fun _ _ => .mk .nil
  | hints, n :: rest => by
    refine (hb.gives n _).accepted (fun _ => .pure _) fun n' type => ?_
    refine (tupleElems_passes hints.tail rest).accepted (fun _ => .pure _) fun rest' types => ?_
    exact .pure fun s₂ _ s₁ hrest s hn => .mk (.cons hn hrest)

theorem arrayElems_passes : ∀ (elem : Ty) (ns : List Node),
    Passes (arrayElems below elem ns) fun s r s' =>
      Accepted (fun ns' elem' => ArrayElems B s elem ns ns' elem' s') r
  | _, [] => .pure fun _ _ => .mk .nil
  | elem, n :: rest => by
    refine (hb.gives n elem).accepted (fun _ => .pure _) fun n' type => ?_
    dsimp only
    split
    · rename_i hunknown
      refine (arrayElems_passes type rest).accepted (fun _ => .pure _) fun rest' elem' => ?_
      refine .pure fun s₂ _ s₁ hrest s hn => ?_
      refine .mk (.cons hn (fun h => ?_) (by rwa [if_pos hunknown]))
      rw [h] at hunknown
      cases hunknown
    · rename_i hunknown
      refine accepts_bind (.pure _) ?_
      refine (arrayElems_passes elem rest).accepted (fun _ => .pure _) fun rest' elem' => ?_
      refine .pure fun s₂ _ s₁ hrest hc s hn => ?_
      exact .mk (.cons hn (fun _ => hc) (by rwa [if_neg hunknown]))

/-! ## Operations -/

section Operations

variable {h : Head}

theorem binary_passes (hkind : h.kind = .binary) (expected : Ty) (cs : List Node) :
    Passes (binary below h expected cs) fun s r s' =>
      Accepted (fun cs' type => Operation B h expected s cs cs' type s') r := by
  unfold binary
  split
  · split
    · rename_i hop
      exact (conditions_passes hb _).approved (fun _ => .pure _) fun cs' =>
        .pure fun s₁ _ s hcs => .mk (.logical hkind hop hcs)
    · rename_i hop
      refine (operandPair_passes hb _ _ _).bind fun ⟨left', right', type⟩ => ?_
      cases type with
      | none => exact .pure fun _ _ _ => nofun
      | some type =>
        refine (binaryType_passes h type).found (.pure _) fun result => ?_
        refine .pure fun s₂ _ s₁ hrun s hpair => ?_
        obtain ⟨_, _, _, he, hpair⟩ := hpair
        cases he
        exact .mk (.binary hkind (by simpa using hop) hpair hrun)
  · exact missingOperand_passes _ _ _

theorem unary_passes (hkind : h.kind = .unary) (expected : Ty) (cs : List Node) :
    Passes (unary below h expected cs) fun s r s' =>
      Accepted (fun cs' type => Operation B h expected s cs cs' type s') r := by
  unfold unary
  split
  · refine (hb.gives _ expected).accepted (fun _ => .pure _) fun operand' type => ?_
    refine .symbols fun t => ?_
    split
    · rename_i happlies
      exact .pure fun s₁ _ ht s hn => .mk (.unary hkind hn (ht ▸ happlies))
    · exact .rejects _ rfl _
  · exact missingOperand_passes _ _ _

theorem borrow_passes (hkind : h.kind = .ref) (expected : Ty) (cs : List Node) :
    Passes (borrow below h expected cs) fun s r s' =>
      Accepted (fun cs' type => Operation B h expected s cs cs' type s') r := by
  unfold borrow
  split
  · refine .symbols fun t => ?_
    refine (hb.gives _ _).accepted (fun _ => .pure _) fun operand' type => .symbols fun t' => ?_
    split
    · exact .rejects _ rfl _
    · rename_i hroot
      refine .pure fun s₁ _ ht' s hn ht => ?_
      subst ht ht'
      refine .mk (.borrow hkind hn fun hm => ?_)
      rcases hr : s₁.table.immutableRoot? operand' with _ | name
      · rfl
      · exact absurd hm (hroot name hr)
  · exact missingOperand_passes _ _ _

theorem deref_passes (hkind : h.kind = .deref) (expected : Ty) (cs : List Node) :
    Passes (deref below h cs) fun s r s' =>
      Accepted (fun cs' type => Operation B h expected s cs cs' type s') r := by
  unfold deref
  split
  · refine (hb.gives _ _).accepted (fun _ => .pure _) fun operand' type => .symbols fun t => ?_
    split
    · rename_i m htarget
      exact .pure fun s₁ _ ht s hn => .mk (.deref hkind hn (.inl ⟨m, ht ▸ htarget⟩))
    · rename_i htarget
      exact .pure fun s₁ _ ht s hn => .mk (.deref hkind hn (.inr (ht ▸ htarget)))
    · exact .rejects _ rfl _
  · exact missingOperand_passes _ _ _

theorem tuple_passes (hkind : h.kind = .tuple) (expected : Ty) (cs : List Node) :
    Passes (tuple below expected cs) fun s r s' =>
      Accepted (fun cs' type => Operation B h expected s cs cs' type s') r := by
  unfold tuple
  split
  · rename_i hempty
    obtain rfl := List.isEmpty_iff.1 hempty
    exact .pure fun _ _ => .mk (.unit hkind)
  · rename_i hempty
    refine .symbols fun t => ?_
    refine (tupleElems_passes hb _ cs).accepted (fun _ => .pure _) fun cs' types => ?_
    refine .pure fun s₁ _ s hcs ht => ?_
    subst ht
    exact .mk (.tuple hkind (fun he => hempty (List.isEmpty_iff.2 he)) hcs)

theorem array_passes (hkind : h.kind = .array) (expected : Ty) (cs : List Node) :
    Passes (array below h expected cs) fun s r s' =>
      Accepted (fun cs' type => Operation B h expected s cs cs' type s') r := by
  refine .symbols fun t => ?_
  dsimp only
  split
  · exact .rejects _ rfl _
  · rename_i hknown
    refine (arrayElems_passes hb _ cs).accepted (fun _ => .pure _) fun cs' elem => ?_
    refine .pure fun s₁ _ s hcs ht => ?_
    subst ht
    exact .mk (.array hkind (by simpa using hknown) hcs)

theorem index_passes (hkind : h.kind = .index) (expected : Ty) (cs : List Node) :
    Passes (index below h cs) fun s r s' =>
      Accepted (fun cs' type => Operation B h expected s cs cs' type s') r := by
  unfold index
  split
  · refine (hb.gives _ _).accepted (fun _ => .pure _) fun base' type => ?_
    refine (elementType_passes _ _).found (.pure _) fun elem => ?_
    refine (indexExpr_passes hb _).approved (fun _ => .pure _) fun idx' => ?_
    exact .pure fun s₃ _ s₂ hi s₁ hr s hn => .mk (.index hkind hn hr hi)
  · exact missingOperand_passes _ _ _

theorem cast_passes (hkind : h.kind = .cast) (expected : Ty) (cs : List Node) :
    Passes (cast below h cs) fun s r s' =>
      Accepted (fun cs' type => Operation B h expected s cs cs' type s') r := by
  unfold cast
  split
  · refine (hb.gives _ _).accepted (fun _ => .pure _) fun operand' type => ?_
    refine (checkType_passes _ _).run.bind fun ok => .pure fun s₂ _ s₁ hr s hn => ?_
    obtain ⟨hrun, rfl⟩ := hr
    exact .mk (.cast hkind hn hrun)
  · exact missingOperand_passes _ _ _

end Operations

/-! ## Places and assignments -/

omit hb in
/-- The place of a field is a field of a place. -/
theorem memberPlace_passes (loc : Location) (left right : Node) {leftPlace}
    (hleft : Passes leftPlace fun s r s' =>
      Accepted (fun left' p => PlaceOf B s left left' p s') r) :
    Passes (memberPlace loc left leftPlace right) fun s r s' => Accepted (fun left' q =>
      ∃ f cs fs b p field s₁, right = .mk f cs fs b ∧ f.kind = .ident ∧
        PlaceOf B s left left' p s₁ ∧
        CleanRun (fieldType (s₁.table.through p).type f.name f.loc) s₁ (some field) s' ∧
        q = { s₁.table.through p with type := field }) r := by
  unfold memberPlace
  split
  · exact .rejects _ rfl _
  · rename_i f cs fs b
    split
    · rename_i hname
      refine hleft.accepted (fun _ => .pure _) fun left' p => .symbols fun t => ?_
      refine (fieldType_passes _ _ _).found (.pure _) fun field => ?_
      refine .pure fun s₂ _ s₁ hr ht s hp => ?_
      subst ht
      exact .mk ⟨f, cs, fs, b, p, field, s₁, rfl, hname, hp, hr, rfl⟩
    · exact .rejects _ rfl _

theorem elementPlace_passes (loc : Location) (p : Place) (idx : Node) :
    Passes (elementPlace below loc p idx) fun s r s' => Accepted (fun idx' q =>
      ∃ s₁, CleanRun (elementsPlace loc p) s (some q) s₁ ∧
        AsIndex B s₁ idx idx' s') r := by
  refine (elementsPlace_passes loc p).found (.pure _) fun element => ?_
  refine (indexExpr_passes hb idx).approved (fun _ => .pure _) fun idx' => ?_
  exact .pure fun s₂ _ s₁ hi s hr => .mk ⟨s₁, hr, hi⟩

theorem place_passes : ∀ n : Node, Passes (place below n) fun s r s' =>
    Accepted (fun n' p => PlaceOf B s n n' p s') r
  | .absent => .rejects _ rfl _
  | .mk h cs fs b => by
    have hmissing : Passes (around h fs b (missingOperand h.loc cs (none : Option Place)))
        fun s r s' => Accepted (fun n' p => PlaceOf B s (.mk h cs fs b) n' p s') r :=
      Passes.reports (.pure _) h.loc rfl
    unfold place
    split
    · rename_i hkind
      refine .symbols fun t => (entryPlace_passes _ _ _).bind fun p => ?_
      refine .pure fun s₁ _ s hp ht => ?_
      obtain ⟨e, v, he, hv, rfl, rfl⟩ := hp
      subst ht
      exact .mk (.name hkind he hv)
    · rename_i hkind
      split
      · rename_i path hchain
        refine .symbols fun t => (entryPlace_passes _ _ _).bind fun p => ?_
        refine .pure fun s₁ _ s hp ht => ?_
        obtain ⟨e, v, he, hv, rfl, rfl⟩ := hp
        subst ht
        exact .mk (.path hkind hchain he hv)
      · exact .rejects _ rfl _
    · rename_i hkind
      split
      · rename_i left right rest
        refine (memberPlace_passes _ left right (place_passes left)).accepted (fun _ => .pure _)
          fun left' p => .pure fun s₁ _ s hp => ?_
        obtain ⟨f, cs, fs', b', p, field, s₁, rfl, hname, hp, hfield, rfl⟩ := hp
        exact .mk (.member hkind hname hp hfield)
      · exact hmissing
    · rename_i hkind
      split
      · rename_i base idx rest
        refine (place_passes base).accepted (fun _ => .pure _) fun base' p => ?_
        refine (elementPlace_passes hb _ p idx).accepted (fun _ => .pure _) fun idx' q => ?_
        refine .pure fun s₂ _ s₁ hq s hp => ?_
        obtain ⟨s₂', hq, hi⟩ := hq
        exact .mk (.element hkind hp hq hi)
      · exact hmissing
    · rename_i hkind
      split
      · rename_i operand rest
        refine (hb.gives _ _).accepted (fun _ => .pure _) fun operand' type => ?_
        refine (pointeePlace_passes _ _ _).found (.pure _) fun p => ?_
        exact .pure fun s₂ _ s₁ hrun s hn => .mk (.pointee hkind hn hrun)
      · exact hmissing
    · exact .rejects _ rfl _

theorem storedValue_passes (h : Head) (type : Ty) (value : Node) :
    Passes (storedValue below h type value) fun s r s' =>
      Approved (fun value' => Stored B h type s value value' s') r := by
  refine .symbols fun t => ?_
  split
  · exact .rejects _ rfl _
  · rename_i hop
    refine (exprOf_passes hb type value).mono fun s r s' hv ht => ?_
    obtain ⟨hv⟩ := hv
    subst ht
    refine .mk ⟨?_, hv⟩
    by_cases he : h.op = "="
    · exact .inl he
    · exact .inr (by simpa [he] using hop)

theorem store_passes (h : Head) (p : Place) (value : Node) :
    Passes (store below h (some p) value) fun s r s' => Approved (fun value' =>
      p.writable = true ∧ Stored B h p.type s value value' s') r := by
  unfold store
  dsimp only
  split
  · rename_i hw
    refine (storedValue_passes hb h p.type value).mono fun s r s' hv => ?_
    obtain ⟨hv⟩ := hv
    exact .mk ⟨hw, hv⟩
  · refine .rejects _ ?_ _
    split <;> rfl

theorem storeName_passes (h : Head) (name : Ident) (type : Ty) (value : Node) :
    Passes (storeName below h name type value) fun s r s' => Approved (fun value' =>
      ∃ s₁, Stored B h type s value value' s₁ ∧
        s' = { s₁ with table := s₁.table.modify name .withValue }) r := by
  refine (storedValue_passes hb h type value).approved (fun _ => .pure _) fun value' => ?_
  refine ⟨fun s => (State.Grows.refl s).append [] (List.append_nil _).symm rfl, ?_⟩
  exact fun s₁ _ s hv => .mk ⟨s₁, hv, rfl⟩

theorem assignName_passes (h target : Head) (value : Node) :
    Passes (assignName below h target value) fun s r s' =>
      Approved (fun value' => AssignsName B h target s value value' s') r := by
  have hdone := fun type => storeName_passes hb h target.name type value
  refine .symbols fun t => ?_
  dsimp only
  split
  · rename_i e he
    split
    · rename_i v hv
      split
      · rename_i hcause
        exact .rejects _ (by rcases assignable_cause hcause with rfl | rfl <;> rfl) _
      · rename_i type htype
        split
        · refine Passes.bind (P := fun s _ s' => s.Warned s')
            ⟨growing_report _ _, fun s _ => ⟨[_], by simp [Cause.severity], rfl⟩⟩ fun _ => ?_
          refine (hdone type).mono fun s₁ r s' hr s hw ht => ?_
          obtain ⟨s₂, hv', rfl⟩ := hr
          subst ht
          exact .mk ⟨e, v, type, s₁, s₂, he, hv, htype, hw, hv', rfl⟩
        · refine (hdone type).mono fun s r s' hr ht => ?_
          obtain ⟨s₂, hv', rfl⟩ := hr
          subst ht
          exact .mk ⟨e, v, type, s, s₂, he, hv, htype, ⟨[], nofun, by simp⟩, hv', rfl⟩
    · exact .rejects _ rfl _
  · exact .rejects _ rfl _

theorem assign_passes (h : Head) (cs : List Node) :
    Passes (assign below h cs) fun s r s' =>
      Approved (fun cs' => Assignment B h s cs cs' s') r := by
  unfold assign
  split
  · rename_i target value rest
    split
    · rename_i hname
      refine (assignName_passes hb h _ value).approved (fun _ => .pure _) fun value' => ?_
      refine .pure fun s₁ _ s hv => ?_
      cases target with
      | absent => cases hname
      | mk target tcs tfs tb => exact .mk (.name (by simpa [Node.kind?] using hname) hv)
    · rename_i hname
      refine (place_passes hb target).accepted (fun _ => .bind (.pure _) fun _ => .pure _)
        fun target' p => ?_
      refine (store_passes hb h p value).approved (fun _ => .pure _) fun value' => ?_
      refine .pure fun s₂ _ s₁ hstore s hp => ?_
      exact .mk (.place hname hp hstore.1 hstore.2)
  · exact missingOperand_passes _ _ _

/-! ## Components and arguments -/

omit hb in
theorem Operand.of_marks {s s₁ : State} {n n'} (hs : s.Marks s₁) (h : Operand B s₁ n n') :
    Operand B s n n' := by
  obtain ⟨s₂, expected, type, s₃, hs₂, h⟩ := h
  exact ⟨s₂, expected, type, s₃, hs.trans hs₂, h⟩

omit hb in
theorem OfType.operand {s s' n n' type} (h : OfType B type s n n' s') : Operand B s n n' := by
  obtain ⟨actual, h, -⟩ := h
  exact ⟨s, type, actual, s', .refl s, h⟩

theorem exprOf_marks (type : Ty) (n : Node) (s : State) : s.Marks (exprOf below type n s).2 :=
  hb.marks_of (fun _ L => (L.exprOf (P := fun _ => True) trivial type).judges) s

theorem components_passes (fields : Fields) (owner : List Ident) :
    ∀ done fs : List (Component Node), Passes (components below fields owner done fs)
      fun s r _ => Accepted (fun fs' built =>
        List.Forall₂ (Component.Lift (Operand B s)) fs fs' ∧
          built = fs'.foldl (fun built f => putComponent f built) done) r
  | done, [] => .pure fun _ _ => .mk ⟨.nil, rfl⟩
  | done, f :: rest => by
    unfold components
    split
    · exact .rejects _ rfl _
    · refine .symbols fun t => ?_
      refine ((exprOf_passes hb _ f.value).approved_marks (exprOf_marks hb _ _)).approved
        (fun _ => .pure _) fun value => ?_
      refine (components_passes fields owner _ rest).accepted (fun _ => .pure _)
        fun rest' built => .pure fun s₂ _ s₁ hrest s hv _ => ?_
      obtain ⟨hv, hmarks⟩ := hv
      obtain ⟨hrest, rfl⟩ := hrest
      have hrest := hrest.imp fun g g' hg => by
        obtain ⟨hg⟩ := hg
        exact Component.Lift.mk (hg.of_marks hmarks)
      exact .mk ⟨.cons (.withValue f hv.operand) hrest, rfl⟩

theorem argument_passes (path : List Ident) (param : Ty) (arg : Node) :
    Passes (argument below path param arg) fun s r _ =>
      Approved (fun arg' => Operand B s arg arg') r := by
  unfold argument
  split
  · exact (hb.gives arg _).accepted (fun _ => .pure _) fun arg' type =>
      .pure fun s₁ _ s harg => .mk ⟨s, _, _, s₁, .refl s, harg⟩
  · refine .symbols fun t => (exprOf_passes hb _ arg).mono fun s r s' harg _ => ?_
    obtain ⟨harg⟩ := harg
    exact .mk harg.operand

theorem argument_marks (path : List Ident) (param : Ty) (arg : Node) (s : State) :
    s.Marks (argument below path param arg s).2 :=
  hb.marks_of (fun _ L => (L.argument (P := fun _ => True) path param trivial).judges) s

theorem arguments_passes (path : List Ident) : ∀ (params : List Ty) (args : List Node),
    Passes (arguments below path params args) fun s r _ =>
      Approved (fun args' => List.Forall₂ (Operand B s) args args') r
  | _, [] => .pure fun _ _ => .mk .nil
  | params, arg :: rest => by
    refine ((argument_passes hb path _ arg).approved_marks (argument_marks hb path _ arg)).approved
      (fun _ => .pure _) fun arg' => ?_
    refine (arguments_passes path params.tail rest).approved (fun _ => .pure _) fun rest' => ?_
    exact .pure fun s₂ _ s₁ hrest s ⟨ha, hmarks⟩ =>
      .mk (.cons ha (hrest.imp fun _ _ h => h.of_marks hmarks))

theorem argumentsByName_passes (path : List Ident) (sig : Signature) :
    ∀ fs : List (Component Node), Passes (argumentsByName below path sig fs) fun s r _ =>
      Approved (fun fs' => List.Forall₂ (Component.Lift (Operand B s)) fs fs') r
  | [] => .pure fun _ _ => .mk .nil
  | f :: rest => by
    unfold argumentsByName
    split
    · exact .rejects _ rfl _
    · refine ((argument_passes hb path _ f.value).approved_marks (argument_marks hb path _ _)).approved
        (fun _ => .pure _) fun value => ?_
      refine (argumentsByName_passes path sig rest).approved (fun _ => .pure _) fun rest' => ?_
      refine .pure fun s₂ _ s₁ hrest s ⟨hv, hmarks⟩ => ?_
      refine .mk (.cons (.withValue f hv) (hrest.imp fun g g' hg => ?_))
      obtain ⟨hg⟩ := hg
      exact .mk (hg.of_marks hmarks)

omit hb in
theorem givenValue?_mem {given name x} (h : givenValue? given name = some x) :
    ∃ f ∈ given, f.value = x := by
  obtain ⟨f, hf, rfl⟩ := Option.map_eq_some_iff.1 h
  exact ⟨f, List.mem_reverse.1 (List.mem_of_find?_eq_some hf), rfl⟩

omit hb in
theorem inOrder_passes (loc : Location) (path : List Ident) (given : List (Component Node)) :
    ∀ params : List Formal, Passes (inOrder loc path given params) fun _ r _ =>
      ∃ args, r = some args ∧ ∀ x ∈ args, ∃ f ∈ given, f.value = x
  | [] => .pure fun _ _ => ⟨[], rfl, nofun⟩
  | p :: rest => by
    unfold inOrder
    split
    · exact .rejects _ rfl _
    · rename_i value hvalue
      refine (inOrder_passes loc path given rest).bind fun args => .pure fun s₁ _ s hargs => ?_
      obtain ⟨args, rfl, hargs⟩ := hargs
      exact ⟨value :: args, rfl, List.forall_mem_cons.2 ⟨givenValue?_mem hvalue, hargs⟩⟩

theorem tuplePayload_passes (path : List Ident) : ∀ (i : Nat) (types : List Ty) (vs : List Node),
    vs.length = types.length → Passes (tuplePayload below path i types vs) fun s r _ =>
      Accepted (fun _ payload =>
        List.Forall₂ (Operand B s) vs (payload.map (·.value))) r
  | _, _ :: _, [], h => by simp at h
  | _, [], _ :: _, h => by simp at h
  | _, [], [], _ => .pure fun _ _ => .mk .nil
  | i, type :: types, v :: rest, h => by
    refine .symbols fun t => ?_
    refine ((exprOf_passes hb _ v).approved_marks (exprOf_marks hb _ _)).approved
      (fun _ => .pure _) fun v' => ?_
    refine (tuplePayload_passes path (i + 1) types rest (by simpa using h)).accepted
      (fun _ => .pure _) fun rest' payload => ?_
    exact .pure fun s₂ _ s₁ hrest s ⟨hv, hmarks⟩ _ =>
      .mk (.cons hv.operand (hrest.imp fun _ _ h => h.of_marks hmarks))

end Rules

end TreeSema.Analysis
