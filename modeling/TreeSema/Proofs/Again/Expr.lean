import TreeSema.Proofs.Accept.Expr
import TreeSema.Proofs.Again.Follow

/-!
# Expressions that are analysed again

What analysis has made of an expression without errors is left alone when it is analysed again, and
has the same type.

* `Resembles`: how much of a node can be seen in what analysis makes of it.
* `ExprRule.Repeating`: what is known of the expressions below.
* `Operation.again`, `PlaceOf.again`, `Access.again`, …: one statement for each rule of acceptance.
* `Accepts.again`: an expression that is accepted is left alone, if those below are.
-/
namespace TreeSema

/-- Can a node of this kind take the place of a chain? -/
def Kind.replacesChain : Kind → Bool
  | .int | .literal | .typedCall => true
  | _ => false

theorem Kind.isStatement_of_replacesChain {kind : Kind} (h : kind.replacesChain = true) :
    kind.isStatement = false := by
  unfold Kind.replacesChain at h
  split at h
  case h_4 => cases h
  all_goals rfl

theorem Kind.isChain_iff {kind : Kind} :
    kind.isChain = true ↔ kind = .call ∨ kind = .lit ∨ kind = .dot ∨ kind = .path := by
  cases kind <;> simp [Kind.isChain]

theorem EntryKind.LowersTo.cases {M : Type} {k : EntryKind M} {kind} (h : k.LowersTo kind) :
    kind = .int ∨ kind = .literal ∨ kind = .typedCall := by
  cases h <;> simp

namespace Analysis

/-! ## What is left of a node -/

/-- A node is kept, or it is a chain and something takes its place that is none. -/
structure Resembles (n n' : Node) : Prop where
  head : n'.kind? = n.kind? ∧ n'.head = n.head ∨
    n.kind?.any Kind.isChain = true ∧ n'.kind?.any Kind.replacesChain = true
  literal : n'.isOpenLiteral = n.isOpenLiteral
  names : ∀ {path}, n'.chain? = some ⟨path, none⟩ → n.chain? = some ⟨path, none⟩

namespace Resembles

variable {n n' : Node}

theorem kind_eq (h : Resembles n n') {kind : Kind} (hkind : n'.kind? = some kind)
    (hkept : kind.replacesChain = false) : n.kind? = some kind ∧ n.head = n'.head := by
  rcases h.head with ⟨hk, hh⟩ | ⟨-, hnew⟩
  · exact ⟨hk ▸ hkind, hh.symm⟩
  · rw [hkind, Option.any_some, hkept] at hnew
    cases hnew

/-- What has no rules of its own as a statement becomes such a node again. -/
theorem expression {h : Head} {cs fs b} (hr : Resembles (.mk h cs fs b) n')
    (hk : h.kind.isStatement = false) :
    ∃ h' cs' fs' b', n' = .mk h' cs' fs' b' ∧ h'.kind.isStatement = false := by
  cases n' with
  | absent => rcases hr.head with ⟨hkind, -⟩ | ⟨-, hnew⟩ <;> contradiction
  | mk h' cs' fs' b' =>
    refine ⟨h', cs', fs', b', rfl, ?_⟩
    rcases hr.head with ⟨hkind, -⟩ | ⟨-, hnew⟩
    · rwa [Option.some.inj hkind]
    · exact Kind.isStatement_of_replacesChain hnew

/-- A chain of names is one of the same names as before. -/
theorem writes_names {h cs cs' fs fs' b b'} (hcs : List.Forall₂ Resembles cs cs') {path}
    (hw : (Node.mk h cs' fs' b').Writes ⟨path, none⟩) :
    (Node.mk h cs fs b).Writes ⟨path, none⟩ := by
  cases hw with
  | name hk => exact .name hk
  | access hk hleft hright =>
    cases hcs with
    | cons hl hcs =>
      cases hcs with
      | cons hr hcs =>
        have hleft := Node.chain?_eq_some_iff.1 (hl.names (Node.chain?_eq_some_iff.2 hleft))
        cases hright with
        | name hkr =>
          obtain ⟨hkind, hhead⟩ := hr.kind_eq (congrArg some hkr) rfl
          rename_i right _ _ _ _ _
          cases right with
          | absent => cases hkind
          | mk r rcs rfs rb =>
            cases hhead
            exact .access hk hleft (.name hkr)

end Resembles

/-- What takes the place of a chain is no chain, and no literal without a type. -/
theorem Replacement.resembles {All : List Node → List Node → Prop}
    {Named : List (Component Node) → List (Component Node) → Prop}
    {Order : List (Component Node) → List Node → Prop} {tail loc} {n : Node}
    (h : Replacement All Named Order tail loc n) :
    n.kind?.any Kind.replacesChain = true ∧ n.isOpenLiteral = false ∧ n.chain? = none := by
  cases h <;> exact ⟨rfl, rfl, rfl⟩

theorem resembles_rewriting (I : State → Prop) : Rewriting I Resembles where
  refl n := ⟨.inl ⟨rfl, rfl⟩, rfl, id⟩
  keep hcs _ _ := ⟨.inl ⟨rfl, rfl⟩, rfl, fun hc => Node.chain?_eq_some_iff.2
    (Resembles.writes_names hcs (Node.chain?_eq_some_iff.1 hc))⟩
  replace {n n' path tail} hkind hchain h _ := by
    obtain ⟨hnew, hclosed, hnone⟩ := h.resembles
    refine ⟨.inr ⟨hkind, hnew⟩, hclosed.trans ?_, fun hc => by rw [hnone] at hc; cases hc⟩
    cases n with
    | absent => rfl
    | mk hd cs fs b =>
      rcases Kind.isChain_iff.1 hkind with hk | hk | hk | hk
      all_goals simp [Node.isOpenLiteral, hk]

/-- What is accepted of the expressions below is found again, and resembles what it was. -/
structure ExprRule.Repeating (B : Judgement) (rule : ExprRule) : Prop where
  again : ∀ {s u : State} {n n' : Node} {expected type : Ty} {s' : State},
    B s n expected n' type s' → u.Trails s → Repeats (rule n' expected) u (n', some type) s'
  resembles : ∀ {s : State} {n n' : Node} {expected type : Ty} {s' : State},
    B s n expected n' type s' → Resembles n n'

section Rules

variable {below : ExprRule} {B : Judgement} (hb : below.Repeating B) {s s' : State}

/-! ## Operands -/

variable {expected type : Ty} {n n' left' b value value' : Node} {ns ns' cs cs' : List Node}
  {h : Head} {fs : List (Component Node)} {e : SymbolEntry} {p : Place}

omit hb in
theorem accepts_again {actual} (loc : Location) (hc : s.table.compatible expected actual = true) :
    Resumes (accepts expected actual loc) s true s := by
  refine .symbols fun ht => ?_
  rw [if_pos ((ht.same₂ Symbols.compatible_filled _ _).trans hc)]
  exact .pure

include hb

theorem ExprRule.Repeating.resumes (hn : B s n expected n' type s') :
    Resumes (below n' expected) s (n', some type) s' := fun _ => hb.again hn

theorem OfType.again (h : OfType B type s n n' s') : Resumes (exprOf below type n') s (n', true) s' := by
  obtain ⟨actual, hn, hc⟩ := h
  exact (hb.resumes hn).bind ((accepts_again n'.loc hc).bind .pure)

theorem AsIndex.again (h : AsIndex B s n n' s') : Resumes (indexExpr below n') s (n', true) s' := by
  obtain ⟨actual, hn, hint⟩ := h
  refine (hb.resumes hn).bind (.symbols fun ht => ?_)
  rw [← ht.same Symbols.underlying_filled] at hint
  rw [if_pos hint]
  exact .pure

theorem Conditions.again (h : Conditions B s ns ns' s') :
    Resumes (conditions below ns') s (ns', true) s' := by
  induction h with
  | nil => exact .pure
  | cons hn _ ih => exact (hn.again hb).bind (ih.bind .pure)

theorem Agreeing.again {first second first' second'}
    (h : Agreeing B s first second expected first' second' type s') :
    Resumes (agreeing below first' second' expected) s (first', second', some type) s' := by
  obtain ⟨s₁, other, hf, hs, hc⟩ := h
  exact (hb.resumes hf).bind ((hb.resumes hs).bind ((accepts_again second'.loc hc).bind .pure))

theorem OperandPair.again {left right right'}
    (h : OperandPair B s left right expected left' right' type s') :
    Resumes (operandPair below left' right' expected) s (left', right', some type) s' := by
  have hopen : left'.isOpenLiteral = left.isOpenLiteral ∧
      right'.isOpenLiteral = right.isOpenLiteral := by
    unfold OperandPair at h
    split at h
    all_goals
      obtain ⟨_, _, h₁, h₂, -⟩ := h
      simp only [(hb.resembles h₁).literal, (hb.resembles h₂).literal, and_self]
  unfold OperandPair at h
  unfold operandPair
  rw [hopen.1, hopen.2]
  split
  · rename_i hc
    rw [if_pos hc] at h
    exact (h.again hb).bind .pure
  · rename_i hc
    rw [if_neg hc] at h
    exact h.again hb

theorem TupleElems.again {hints types} (h : TupleElems B s hints ns ns' types s') :
    Resumes (tupleElems below hints ns') s (ns', some types) s' := by
  induction h with
  | nil => exact .pure
  | cons hn _ ih => exact (hb.resumes hn).bind (ih.bind .pure)

omit hb in
theorem TupleElems.length_eq {hints types} (h : TupleElems B s hints ns ns' types s') :
    ns'.length = ns.length := by
  induction h with
  | nil => rfl
  | cons _ _ ih => rw [List.length_cons, ih, List.length_cons]

theorem ArrayElems.again {elem elem'} (h : ArrayElems B s elem ns ns' elem' s') :
    Resumes (arrayElems below elem ns') s (ns', some elem') s' := by
  induction h with
  | nil => exact .pure
  | cons hn hfits _ ih =>
    refine (hb.resumes hn).bind ?_
    dsimp only
    split
    · rename_i hunknown
      rw [if_pos hunknown] at ih
      exact ih.bind .pure
    · rename_i hknown
      rw [if_neg hknown] at ih
      exact (accepts_again _ (hfits (by simpa using hknown))).bind (ih.bind .pure)

omit hb in
theorem ArrayElems.length_eq {elem elem'} (h : ArrayElems B s elem ns ns' elem' s') :
    ns'.length = ns.length := by
  induction h with
  | nil => rfl
  | cons _ _ _ ih => rw [List.length_cons, ih, List.length_cons]

/-! ## Operations -/

omit hb in
theorem isEmpty_eq_of_length (h : ns'.length = ns.length) : ns'.isEmpty = ns.isEmpty := by
  cases ns <;> cases ns' <;> first | rfl | cases h

/-- The rule for the kind of a node gives its operands and its type again. -/
theorem Operation.again (hop : Operation B h expected s cs cs' type s') :
    Resumes (exprStep below expected (.mk h cs' fs b)) s (.mk h cs' fs b, some type) s' := by
  cases hop with
  | logical hk hop hcs =>
    obtain ⟨n', m', rest', rfl⟩ : ∃ n' m' rest', cs' = n' :: m' :: rest' := by
      cases hcs with
      | cons _ hcs =>
        cases hcs with
        | cons => exact ⟨_, _, _, rfl⟩
    simp only [exprStep, hk]
    refine .around ?_
    simp only [Analysis.binary, hop, if_true]
    exact (hcs.again hb).bind .pure
  | binary hk hop hpair hresult =>
    simp only [exprStep, hk]
    refine .around ?_
    simp only [Analysis.binary, hop, Bool.false_eq_true, if_false]
    exact (hpair.again hb).bind (((Follows.respected.binaryType h _).run hresult).bind .pure)
  | unary hk hoperand happlies =>
    simp only [exprStep, hk]
    refine .around ((hb.resumes hoperand).bind (.symbols fun ht => ?_))
    rw [← ht.same Symbols.underlying_filled] at happlies
    rw [if_pos happlies]
    exact .pure
  | borrow hk hoperand hmutable =>
    simp only [exprStep, hk]
    refine .around (.symbols fun ht => ?_)
    rw [borrowedType, ht.same Symbols.underlying_filled]
    refine (hb.resumes hoperand).bind (.symbols fun ht => ?_)
    rw [← ht.same Symbols.immutableRoot?_filled] at hmutable
    split
    · rename_i hroot hm
      rw [hmutable hm] at hroot
      cases hroot
    · exact .pure
  | deref hk hoperand htarget =>
    simp only [exprStep, hk]
    refine .around ((hb.resumes hoperand).bind (.symbols fun ht => ?_))
    rw [← ht.same Symbols.underlying_filled] at htarget
    rcases htarget with ⟨m, htarget⟩ | htarget
    all_goals
      rw [htarget]
      exact .pure
  | unit hk =>
    simp only [exprStep, hk]
    exact .around .pure
  | tuple hk hsome hcs =>
    have hlen := hcs.length_eq
    have hsome : cs'.isEmpty = false := by
      rw [isEmpty_eq_of_length hlen]
      exact List.isEmpty_eq_false_iff.2 hsome
    simp only [exprStep, hk]
    refine .around ?_
    simp only [Analysis.tuple, hsome, Bool.false_eq_true, if_false]
    refine .symbols fun ht => ?_
    rw [tupleHints, ht.same Symbols.underlying_filled, hlen]
    exact (hcs.again hb).bind .pure
  | array hk hknown hcs =>
    have hempty := isEmpty_eq_of_length hcs.length_eq
    simp only [exprStep, hk]
    refine .around (.symbols fun ht => ?_)
    dsimp only
    rw [elementHint, ht.same Symbols.underlying_filled, ← elementHint, hempty, hknown,
      if_neg Bool.false_ne_true]
    exact (hcs.again hb).bind .pure
  | index hk hbase helem hidx =>
    simp only [exprStep, hk]
    refine .around ((hb.resumes hbase).bind ?_)
    exact ((Follows.respected.elementType _ _).run helem).bind ((hidx.again hb).bind .pure)
  | cast hk hoperand htype =>
    simp only [exprStep, hk]
    refine .around ((hb.resumes hoperand).bind ?_)
    exact ((Follows.respected.checkType _ _).run htype).bind .pure

/-! ## Places and assignments -/

omit hb in
/-- Entries that differ in values only are the same place. -/
theorem entryPlace_again (loc : Location) (path : List Ident) {found} {e' : SymbolEntry}
    {v : Variable} (hfound : found = some e') (hfilled : e'.filled = e.filled)
    (hv : e.kind = .var v) :
    Resumes (entryPlace loc path found) s
      (some ⟨path.getLastD .missing, v.type, v.mutable, false⟩) s := by
  obtain ⟨v', hv', htype, hmutable, -⟩ := Entry.var_of_filled hfilled hv
  subst hfound
  simp only [entryPlace, hv', htype, hmutable]
  exact .pure

theorem PlaceOf.resembles (h : PlaceOf B s n n' p s') : Resembles n n' := by
  have hR := resembles_rewriting fun _ => True
  induction h with
  | name | path => exact hR.refl _
  | member _ _ _ _ ih => exact hR.operands (.cons ih (hR.refl_all _))
  | element _ _ _ hidx ih =>
    obtain ⟨_, hidx, -⟩ := hidx
    exact hR.operands (.cons ih (.cons (hb.resembles hidx) (hR.refl_all _)))
  | pointee _ hoperand => exact hR.operands (.cons (hb.resembles hoperand) (hR.refl_all _))

omit hb in
/-- The place of a field. -/
theorem memberPlace_again (loc : Location) {r : Head} {rcs rfs rb leftPlace field} {s₁ s₂ : State}
    (hname : r.kind = .ident) (hleft : Resumes leftPlace s (left', some p) s₁)
    (hfield : CleanRun (fieldType (s₁.table.through p).type r.name r.loc) s₁ (some field) s₂) :
    Resumes (memberPlace loc left' leftPlace (.mk r rcs rfs rb)) s
      (left', some { s₁.table.through p with type := field }) s₂ := by
  simp only [memberPlace, hname, if_true]
  refine hleft.bind (.symbols fun ht => ?_)
  rw [ht.same Symbols.through_filled]
  exact ((Follows.respected.fieldType _ _ _).run hfield).bind .pure

theorem elementPlace_again {loc q idx idx' s₁} (hq : CleanRun (elementsPlace loc p) s (some q) s₁)
    (hidx : AsIndex B s₁ idx idx' s') :
    Resumes (elementPlace below loc p idx') s (idx', some q) s' :=
  ((Follows.respected.elementsPlace _ _).run hq).bind ((hidx.again hb).bind .pure)

theorem PlaceOf.again (h : PlaceOf B s n n' p s') :
    Resumes (place below n') s (n', some p) s' := by
  induction h with
  | name hk he hv =>
    unfold place
    simp only [hk]
    refine .symbols fun ht => ?_
    obtain ⟨e', he', hlags⟩ := ht.lookup_eq_some he
    exact (entryPlace_again _ _ he' hlags.filled hv).bind .pure
  | path hk hchain he hv =>
    unfold place
    simp only [hk, hchain]
    refine .symbols fun ht => ?_
    obtain ⟨e', he', hfilled⟩ := ht.resolve_eq_some he
    exact (entryPlace_again _ _ he' hfilled hv).bind .pure
  | member hk hname _ hfield ih =>
    unfold place
    simp only [hk]
    exact (memberPlace_again _ hname ih hfield).bind .pure
  | element hk _ hq hidx ih =>
    unfold place
    simp only [hk]
    exact ih.bind ((elementPlace_again hb hq hidx).bind .pure)
  | pointee hk hoperand hp =>
    unfold place
    simp only [hk]
    exact (hb.resumes hoperand).bind (((Follows.respected.pointeePlace _ _ _).run hp).bind .pure)

theorem Stored.again (hv : Stored B h type s value value' s') :
    Resumes (storedValue below h type value') s (value', true) s' := by
  obtain ⟨hop, hv⟩ := hv
  refine .symbols fun ht => ?_
  rw [ht.same Symbols.underlying_filled, if_neg]
  · exact hv.again hb
  · rintro ⟨hne, hnum⟩
    rcases hop with hop | hop
    · exact hne hop
    · rw [hop] at hnum
      cases hnum

theorem store_again {root} {writable viaRef : Bool} (hw : writable = true)
    (hv : Stored B h type s value value' s') :
    Resumes (store below h (some ⟨root, type, writable, viaRef⟩) value') s (value', true) s' := by
  simp only [store, hw, if_true]
  exact hv.again hb

omit hb in
/-- What may be assigned to a variable may be assigned while fewer variables have a value. -/
theorem assignable_again {t t' : Symbols} (ht : t.Lags t') {v v' : Variable}
    (htype : v.type = v'.type) (hmutable : v.mutable = v'.mutable)
    (hstorage : v.storage = v'.storage) (hvalue : v.initialized = true → v'.initialized = true)
    {op : String} {name} (h : t'.assignable op name v' = .ok type) :
    t.assignable op name v = .ok type := by
  unfold Symbols.assignable at h ⊢
  rw [htype, hmutable, hstorage, ht.same Symbols.underlying_filled]
  split at h
  · rename_i hm
    rw [if_pos hm]
    exact h
  · rename_i hm
    rw [if_neg hm]
    split at h
    · exact h
    · cases h
    · split at h
      · rename_i hfree
        have hnone : v.initialized = false := by
          rcases hv : v.initialized with _ | _
          · rfl
          · rw [hvalue hv] at hfree
            cases hfree
        rw [Bool.and_assoc, Bool.and_eq_true] at hfree
        rw [hnone, Bool.and_assoc, hfree.2]
        exact h
      · cases h

omit hb in
theorem State.Warned.marks (h : s.Warned s') : s.Marks s' := by
  obtain ⟨fs, -, rfl⟩ := h
  exact ⟨.refl _, rfl, rfl⟩

theorem AssignsName.again {target} (ha : AssignsName B h target s value value' s') :
    Resumes (assignName below h target value') s (value', true) s' := by
  obtain ⟨e, v, type, s₁, s₂, he, hv, htype, hwarned, hvalue, rfl⟩ := ha
  have hdone : Resumes (storeName below h target.name type value') s₁ (value', true)
      { s₂ with table := s₂.table.modify target.name .withValue } :=
    (hvalue.again hb).bind ((Resumes.modifyTable fun ht => ht.withValue _).bind .pure)
  refine .symbols fun ht => ?_
  obtain ⟨e', he', hlags⟩ := ht.lookup_eq_some he
  obtain ⟨v', hv', htype', hmutable, hstorage, hinit⟩ := hlags.var_left hv
  simp only [he', hv', assignable_again ht htype' hmutable hstorage hinit htype]
  split
  · exact Resumes.of_marks (.bind (fun _ hu => ⟨_, rfl, hu.warn (by simp [Cause.severity])⟩) hdone)
      hwarned.marks
  · exact hdone.of_marks hwarned.marks

theorem Assignment.again (ha : Assignment B h s cs cs' s') :
    Resumes (assign below h cs') s (cs', true) s' := by
  cases ha with
  | name hname hvalue =>
    simp only [assign, Node.kind?, hname, if_true]
    exact (hvalue.again hb).bind .pure
  | place hname htarget hw hvalue =>
    have hname' : _ ≠ some Kind.ident := fun hk => hname ((htarget.resembles hb).kind_eq hk rfl).1
    simp only [assign, hname', if_false]
    exact (htarget.again hb).bind ((store_again hb hw hvalue).bind .pure)

/-! ## Chains -/

omit hb in
theorem exprStep_of_access {r} (hkind : n.kind?.any Kind.isChain = true)
    (h : Resumes (access below n) s r s') : Resumes (exprStep below expected n) s r s' := by
  cases n with
  | absent => cases hkind
  | mk hd cs fs b =>
    rcases Kind.isChain_iff.1 hkind with hk | hk | hk | hk
    all_goals
      simp only [exprStep, hk]
      exact h

omit hb in
theorem startsAtValue_congr (t : Symbols) (h : n'.chain?.map (·.path) = n.chain?.map (·.path)) :
    t.startsAtValue n' = t.startsAtValue n := by
  unfold Symbols.startsAtValue
  generalize n.chain? = c, n'.chain? = c' at h ⊢
  rcases c with _ | ⟨path, tail⟩ <;> rcases c' with _ | ⟨path', tail'⟩ <;> cases h
  · rfl
  · cases path <;> rfl

omit hb in
/-- A member access is one again. -/
theorem isMember_again {left right right' rest} {t : Symbols} (hleft : Resembles left left')
    (hright : ∀ path,
      (Chain.extend path right').map (·.path) = (Chain.extend path right).map (·.path))
    (ht : t.Lags s.table) (hmember : s.table.IsMember (.mk h (left :: right :: rest) fs b)) :
    t.IsMember (.mk h (left' :: right' :: rest) fs b) := by
  obtain ⟨hk, hstart⟩ := hmember
  refine ⟨hk, ?_⟩
  have hdot : h.kind = .dot := Option.some.inj hk
  rw [ht.same Symbols.startsAtValue_filled]
  rcases hc : left'.chain? with _ | ⟨path, _ | tail⟩
  · unfold Symbols.startsAtValue Node.chain?
    simp only [hdot, hc]
  · rw [← hstart]
    refine startsAtValue_congr _ ?_
    unfold Node.chain?
    simp only [hdot, hc, hleft.names hc, hright]
  · unfold Symbols.startsAtValue Node.chain?
    simp only [hdot, hc]

omit hb in
theorem not_isMember_again {t : Symbols} (ht : t.Lags s.table) (hmember : ¬ s.table.IsMember n) :
    ¬ t.IsMember n := by
  unfold Symbols.IsMember at hmember ⊢
  rwa [ht.same Symbols.startsAtValue_filled]

omit hb in
theorem extend_assigned {target : Head} {tcs tfs tb} (hassign : h.kind = .assign)
    (hname : target.kind = .ident) (path : List Ident) :
    (Chain.extend path (.mk h (.mk target tcs tfs tb :: cs) fs b)).map (·.path)
      = some (path ++ [target.name]) := by
  rw [Chain.extend_eq_some_iff.2 (.assigned hassign hname)]
  rfl

omit hb in
/-- A chain that ends in an assignment does so with another value. -/
theorem withTail_assigned {target path more} (hassign : h.kind = .assign)
    (hchain : n.chain? = some ⟨path, some (.mk h (target :: value :: more) fs b)⟩) (value' : Node) :
    let tail := Node.mk h (target :: value' :: more) fs b
    (n.withTail tail).chain? = some ⟨path, some tail⟩ ∧ (n.withTail tail).kind? = n.kind? ∧
      (n.withTail tail).withTail tail = n.withTail tail := by
  intro tail
  cases Node.chain?_eq_some_iff.1 hchain with
  | built hk => rcases hk with hk | hk <;> rw [hk] at hassign <;> cases hassign
  | access hk hleft hright =>
    cases hright with
    | built hk => rcases hk with hk | hk <;> rw [hk] at hassign <;> cases hassign
    | assigned _ hname =>
      simp only [Node.withTail, if_pos hk]
      exact ⟨Node.chain?_eq_some_iff.2 (.access hk hleft (.assigned hassign hname)), rfl, trivial⟩

omit hb in
theorem access_of_member
    (hmember : ∀ {t : Symbols}, t.Lags s.table → t.IsMember (.mk h cs fs b))
    (hm : Resumes (member below h cs) s (cs', some type) s') :
    Resumes (access below (.mk h cs fs b)) s (.mk h cs' fs b, some type) s' := by
  refine .symbols fun ht => ?_
  rw [if_pos ⟨(hmember ht).1, (hmember ht).2⟩]
  exact hm.bind .pure

omit hb in
theorem access_of_named {c : Chain} {r} (hmember : ∀ {t : Symbols}, t.Lags s.table → ¬ t.IsMember n)
    (hchain : n.chain? = some c) (he : s.table.resolve c.path = some e)
    (hn : ∀ {e' : SymbolEntry}, e'.filled = e.filled → Resumes (named below n c e') s r s') :
    Resumes (access below n) s r s' := by
  refine .symbols fun ht => ?_
  obtain ⟨e', he', hfilled⟩ := ht.resolve_eq_some he
  rw [if_neg fun h => hmember ht ⟨h.1, h.2⟩]
  simp only [hchain, he']
  exact hn hfilled

omit hb in
/-- What takes the place of a chain has a type of its own. -/
theorem Replaces.again {tail loc kind} (hkind : e.kind.LowersTo kind)
    (hnew : Replaces B s tail loc kind n type) (expected : Ty) :
    Resumes (exprStep below expected n) s' (n, some type) s' := by
  cases n with
  | absent => cases hnew.kind
  | mk h cs fs b =>
    have hk : h.kind = kind := Option.some.inj hnew.kind
    have htype : h.type = type := hnew.type
    subst htype
    rcases hkind.cases with rfl | rfl | rfl
    · simp only [exprStep, hk, hnew.known rfl, Bool.false_eq_true, if_false]
      exact .symbols fun _ => .pure
    · simp only [exprStep, hk]
      exact .pure
    · simp only [exprStep, hk]
      exact .pure

/-- A chain that is accepted is left alone, and so is what takes its place. -/
theorem Access.again (h : Access B s n n' type s')
    (hkind : n.kind?.any Kind.isChain = true) (expected : Ty) :
    Resumes (exprStep below expected n') s (n', some type) s' := by
  cases h with
  | member hmember hname hleft hfield =>
    refine exprStep_of_access hkind (access_of_member (fun ht =>
      isMember_again (hb.resembles hleft) (fun _ => rfl) ht hmember) ?_)
    simp only [Analysis.member, hname]
    exact (hb.resumes hleft).bind (((Follows.respected.fieldType _ _ _).run hfield).bind .pure)
  | writeMember hmember hassign hname hleft hfield hw hvalue =>
    refine exprStep_of_access hkind (access_of_member (fun ht =>
      isMember_again (hleft.resembles hb) (fun path => ?_) ht hmember) ?_)
    · rw [extend_assigned hassign hname, extend_assigned hassign hname]
    simp only [Analysis.member, hassign]
    exact (memberPlace_again _ hname (hleft.again hb) hfield).bind
      ((store_again hb hw hvalue).bind .pure)
  | «variable» hmember hchain he hv hread =>
    refine exprStep_of_access hkind (access_of_named (fun ht => not_isMember_again ht hmember) hchain
      he fun hfilled => ?_)
    obtain ⟨v', hv', -, -, -⟩ := Entry.var_of_filled hfilled hv
    simp only [named, hv', moduleVariable]
    exact ((readEntry_follows _ _ hfilled).run hread).bind .pure
  | writeVariable hmember hchain hassign he hv hmutable hvalue =>
    rename_i value' _ _ _ _ _
    obtain ⟨hchain', hkind', htail⟩ := withTail_assigned hassign hchain value'
    have hstart := fun t : Symbols => startsAtValue_congr t
      ((congrArg (Option.map Chain.path) hchain').trans
        (congrArg (Option.map Chain.path) hchain).symm)
    refine exprStep_of_access (hkind' ▸ hkind) (access_of_named (fun ht hm =>
      not_isMember_again ht hmember ⟨hkind' ▸ hm.1, hstart _ ▸ hm.2⟩) hchain' he fun hfilled => ?_)
    obtain ⟨v', hv', htype, hmutable', -⟩ := Entry.var_of_filled hfilled hv
    simp only [named, hv', moduleVariable, hassign, if_true, htype, hmutable']
    refine (store_again hb hmutable hvalue).bind ?_
    dsimp only
    rw [htail]
    exact .pure
  | replaced _ _ _ hlowers hnew hmarks => exact (hnew.again hlowers expected).of_marks hmarks

/-- An expression that is accepted is left alone, if those below are. -/
theorem Accepts.again (h : Accepts B expected s n n' type s') :
    Resumes (exprStep below expected n') s (n', some type) s' := by
  cases h with
  | int hk =>
    simp only [exprStep, hk]
    exact .symbols fun ht => ht.same Symbols.integerType_filled _ ▸ .pure
  | float hk =>
    simp only [exprStep, hk]
    exact .symbols fun ht => ht.same Symbols.floatType_filled _ ▸ .pure
  | str hk | bool hk =>
    simp only [exprStep, hk]
    exact .pure
  | name hk hread =>
    simp only [exprStep, hk]
    exact ((Follows.respected.readName _).run hread).bind .pure
  | made hk =>
    rcases hk with hk | hk
    all_goals
      simp only [exprStep, hk]
      exact .pure
  | operation hcs => exact hcs.again hb
  | assignment hk hcs =>
    simp only [exprStep, hk]
    exact (hcs.again hb).bind .pure
  | access hk h => exact h.again hb hk expected

end Rules

/-! ## Levels -/

theorem exprAt_resembles {cfg} {k : Nat} {s s' n n' expected type}
    (h : (exprAt cfg k).Gives s n expected n' type s') : Resembles n n' := by
  have hrelates := (exprAt_relates trivial_kept.toStable (resembles_rewriting _) cfg k n expected s
    trivial).2
  rwa [h.run] at hrelates

/-- What was accepted of expressions is found again, at every level. -/
theorem exprAt_repeating (cfg : Config) : ∀ k, (exprAt cfg k).Repeating (exprAt cfg k).Gives
  | 0 => {
    again := fun hn _ => by
      obtain ⟨hfalse⟩ := ((exprAt_elaborates cfg 0).gives _ _).of_run hn
      exact hfalse.elim
    resembles := exprAt_resembles }
  | k + 1 => {
    again := fun hn hu => by
      obtain ⟨haccepts⟩ := (exprStep_passes (exprAt_honest cfg k) _ _).of_run hn
      exact haccepts.again (exprAt_repeating cfg k) hu
    resembles := exprAt_resembles }

end Analysis

end TreeSema
