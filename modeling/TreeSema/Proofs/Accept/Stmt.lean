import TreeSema.Proofs.Accept.Expr

/-!
# Statements that are analysed without errors are accepted

One statement for each rule, where no module is analysed ahead: a run of the rule that ends in a
clean state is an instance of the rules of acceptance.

* `stmtStep_passes`: a statement that is analysed without errors is accepted, if those below are.
* `program_passes`: a program without errors is accepted.
-/
namespace TreeSema.Analysis

variable {α : Type}

theorem Growing.passes {m : Analysis α} (h : Growing m) : Passes m (CleanRun m) :=
  ⟨h, fun _ hs => ⟨rfl, hs⟩⟩

/-- A name that is declared without errors was free. -/
theorem redefined_passes (name : Ident) (loc : Location) :
    Passes (redefined name loc) fun s taken s' =>
      taken = false ∧ s' = s ∧ s.table.lookup name = none := by
  refine .symbols fun t => ?_
  split
  · rename_i hnone
    exact .pure fun s _ ht => ⟨rfl, rfl, ht ▸ Option.isNone_iff_eq_none.1 hnone⟩
  · exact .rejects _ rfl _

theorem redefined_bind {f : Bool → Analysis α} {Q : State → α → State → Prop} {name loc}
    (htrue : Growing (f true))
    (hf : Passes (f false) fun s a s' => s.table.lookup name = none → Q s a s') :
    Passes (redefined name loc >>= f) Q := by
  refine (redefined_passes name loc).bind fun taken => ?_
  cases taken with
  | true => exact ⟨htrue, fun _ _ _ hfree => nomatch hfree.1⟩
  | false =>
    refine hf.mono fun _ _ _ h _ hfree => ?_
    obtain ⟨-, rfl, hfree⟩ := hfree
    exact h hfree

theorem inScope_passes {step} {P : State → α → State → Prop} (context : Context)
    (hstep : Passes step P) : Passes (inScope context step) fun s a s' =>
      Scoped context (fun s₁ s₂ => P s₁ a s₂) s s' where
  growing := hstep.growing.inScope context
  post _ hs := ⟨_, hstep.post _ ⟨hs.findings, hs.depthReported⟩, rfl⟩

theorem returning_passes {step} {P : State → α → State → Prop} (result : Ty)
    (hstep : Passes step P) : Passes (returning result step) fun s a s' =>
      ∃ s₁, P { s with returns := result :: s.returns } a s₁ ∧
        s' = { s₁ with returns := s₁.returns.tail } where
  growing := hstep.growing.returning result
  post _ hs := ⟨_, hstep.post _ ⟨hs.findings, hs.depthReported⟩, rfl⟩

/-- What is known of the analysis of the nodes below, where no module is analysed ahead. -/
structure Below.Honest (B : Judgement) (S : StmtJudgement) (below : Below) : Prop where
  expr : below.expr.Honest B
  stmt : ∀ n, Passes (below.stmt none n) fun s n' s' => S s n n' s'

section Rules

variable {B : Judgement} {S : StmtJudgement} {cfg : Config} {below : Below}
  (hcfg : cfg.looksAhead = false) (hb : below.Honest B S)

include hb

/-! ## Bodies -/

theorem statements_passes : ∀ ns : List Node,
    Passes (statements below (ns.map fun n => (none, n))) fun s ns' s' => Statements S s ns ns' s'
  | [] => .pure fun _ _ => .nil
  | n :: rest => by
    refine (hb.stmt n).bind fun n' => (statements_passes rest).bind fun rest' => ?_
    exact .pure fun s₂ _ s₁ hrest s hn => .cons hn hrest

include hcfg

theorem body_passes (nodes : List Node) : Passes (body cfg below nodes) fun s nodes' s' =>
    BodyOf S s nodes nodes' s' := by
  have hahead : lookAhead cfg below nodes = nodes.map fun n => (none, n) := by
    simp [lookAhead, hcfg]
  refine .get fun s₀ => ?_
  rw [hahead]
  refine (statements_passes hb nodes).bind fun nodes' => ?_
  refine (Growing.passes (.of_ensures fun s₀ =>
    settleDeclared_ensures (grows_kept s₀).toFramed _)).bind
    fun _ => .pure fun s₂ _ s₁ hrun s hnodes hs => ?_
  subst hs
  exact ⟨s₁, hnodes, hrun⟩

theorem moduleDecl_passes (h : Head) (cs : List Node) :
    Passes (moduleDecl cfg below h none cs) fun s cs' s' => ∃ r, s.table.lookup h.name = none ∧
      BodyOf S {} cs cs' r ∧ s' = { s with
        findings := s.findings ++ r.findings
        table := s.table.insert
          (.definition h.name (.moduleDef (some (.table r.table))) h.loc) } := by
  have hbody := body_passes hcfg hb cs
  constructor
  · intro s
    rcases redefined_run h.name h.loc s with ⟨-, hfree⟩ | ⟨e, -, htaken⟩
    · rw [moduleDecl_free hfree]
      exact (State.Grows.refl s).append _ rfl rfl
    · rw [moduleDecl_taken htaken]
      exact (State.Grows.refl s).append [_] rfl rfl
  · intro s hs
    rcases redefined_run h.name h.loc s with ⟨hnone, hfree⟩ | ⟨e, -, htaken⟩
    · rw [moduleDecl_free hfree, Option.getD_none, ofBody_eq] at hs ⊢
      -- the findings in the body are among those made here
      have hclean := (hbody.growing {}).clean_of_init
        fun f hf => hs.findings f (List.mem_append_right _ hf)
      exact ⟨_, hnone, hbody.post {} hclean, rfl⟩
    · rw [moduleDecl_taken htaken] at hs
      have hfound : (⟨h.loc, .redefined h.name⟩ : Finding) ∈
          s.findings ++ [⟨h.loc, .redefined h.name⟩] := by simp
      exact absurd hs (not_clean_of_error hfound rfl)

theorem blockBody_passes (safety : Safety) (nodes : List Node) :
    Passes (blockBody cfg below safety nodes) fun s nodes' s' =>
      Scoped { s.table.context with safety } (fun s s' => BodyOf S s nodes nodes' s') s s' := by
  refine .symbols fun t => (inScope_passes _ (body_passes hcfg hb nodes)).mono fun s a s' h ht => ?_
  subst ht
  exact h

theorem branch_passes (n : Node) : Passes (branch cfg below n) fun s n' s' =>
    Branch S s n n' s' := by
  unfold branch
  split
  · rename_i hblock
    cases n with
    | absent => cases hblock
    | mk h cs fs b =>
      exact (body_passes hcfg hb cs).bind fun cs' => .pure fun s₁ _ s hcs =>
        .block (by simpa [Node.kind?] using hblock) hcs
  · rename_i hblock
    exact (hb.stmt n).mono fun s n' s' hn => .single hblock hn

theorem branches_passes : ∀ ns : List Node, Passes (branches cfg below ns) fun s ns' s' =>
    Branches S s ns ns' s'
  | [] => .pure fun _ _ => .nil
  | n :: rest =>
    (branch_passes hcfg hb n).bind fun _ => (branches_passes rest).bind fun _ =>
      .pure fun _ _ _ hrest _ hn => .cons hn hrest

/-- The last operand of a loop, its body. -/
theorem loopBody_single_passes (n : Node) : Passes (loopBody cfg below [n]) fun s ns' s' =>
    LoopBody S s [n] ns' s' := by
  refine .symbols fun t => ?_
  split
  · rename_i hblock
    cases n with
    | absent => cases hblock
    | mk h cs fs b =>
      have hkind : h.kind = .block := by simpa [Node.kind?] using hblock
      have hone : Passes (do return [Node.mk h (← body cfg below cs) fs b]) fun s ns' s' =>
          ∃ cs', ns' = [.mk h cs' fs b] ∧ BodyOf S s cs cs' s' :=
        (body_passes hcfg hb cs).bind fun cs' => .pure fun s₁ _ s hcs => ⟨cs', rfl, hcs⟩
      refine (inScope_passes _ hone).mono fun s ns' s' hscoped ht => ?_
      obtain ⟨s₁, ⟨cs', rfl, hcs⟩, hs'⟩ := hscoped
      subst ht
      exact .block hkind ⟨s₁, hcs, hs'⟩
  · rename_i hblock
    refine (inScope_passes _ (body_passes hcfg hb [n])).mono fun s a s' h ht => ?_
    subst ht
    exact .single hblock h

theorem loopBody_passes (ns : List Node) : Passes (loopBody cfg below ns) fun s ns' s' =>
    LoopBody S s ns ns' s' := by
  induction ns with
  | nil => exact .pure fun _ _ => .nil
  | cons n rest ih =>
    cases rest with
    | nil => exact loopBody_single_passes hcfg hb n
    | cons m rest => exact ih.bind fun rest' => .pure fun s₁ _ s hrest => .cons hrest

/-! ## Functions and variables -/

omit hcfg hb in
theorem functionBody_passes (h : Head) (params : List Formal) {bh : Head} {bcs : List Node}
    {bfs : List (Component Node)} {bb : Node} {analyse : List Node → Analysis (List Node)}
    (ha : Passes (analyse bcs) fun s cs' s' => BodyOf S s bcs cs' s') :
    Passes (functionBody h params (.mk bh bcs bfs bb) analyse) fun s b' s' => ∃ cs',
      b' = .mk bh cs' bfs bb ∧
      Scoped (functionContext h) (FunctionBody S h params bcs cs') s s' := by
  have hinner : Passes (do
      bindFormals (params.zip (h.params.map (·.loc)))
      return (Node.mk bh bcs bfs bb).withChildren (← returning h.type (analyse bcs)))
      fun s b' s' => ∃ cs', b' = .mk bh cs' bfs bb ∧ FunctionBody S h params bcs cs' s s' := by
    refine (Growing.passes (.of_ensures fun s₀ => bindFormals_ensures (grows_kept s₀).binds _)).bind
      fun _ => (returning_passes h.type ha).bind fun cs' => .pure fun s₂ _ s₁ hbody s hbind => ?_
    obtain ⟨s₃, hbody, rfl⟩ := hbody
    exact ⟨cs', rfl, s₁, s₃, hbind, hbody, rfl⟩
  refine (inScope_passes _ hinner).mono fun s b' s' ⟨s₁, ⟨cs', hb', hbody⟩, hs'⟩ => ?_
  exact ⟨cs', hb', s₁, hbody, hs'⟩

theorem function_passes {h : Head} (hkind : h.kind = .funcDef) (cs : List Node)
    (fs : List (Component Node)) (b : Node) :
    Passes (function h .plain b (body cfg below)) fun s b' s' =>
      Performs B S s (.mk h cs fs b) (.mk h cs fs b') s' := by
  refine redefined_bind (.pure _) ?_
  refine (Growing.passes (.of_ensures fun s₀ =>
    declareFunction_ensures (grows_kept s₀).defining _ _)).bind fun params => ?_
  cases b with
  | absent => exact .pure fun s₁ _ s hsig hfree => .signature hkind hfree hsig
  | mk bh bcs bfs bb =>
    rw [if_neg (show ¬ (Node.mk bh bcs bfs bb).isAbsent = true from Bool.false_ne_true)]
    split
    · exact .rejects _ rfl _
    · rename_i hlocal
      refine (functionBody_passes h params (body_passes hcfg hb bcs)).mono
        fun s₁ b' s' ⟨cs', hb', hbody⟩ s hsig hfree => ?_
      subst hb'
      exact .function hkind hfree hsig (by simpa using hlocal) hbody

omit hcfg in
theorem variableDecl_passes (h : Head) (storage : Storage) (cs : List Node) :
    Passes (variableDecl below.expr h storage cs) fun s cs' s' =>
      s.table.lookup h.name = none ∧ Initializer B h storage s cs cs' s' := by
  have hinsert : ∀ e : SymbolEntry, Passes (insert e) fun s _ s' =>
      s' = { s with table := s.table.insert e } :=
    fun e => ⟨growing_modifyTable _, fun _ _ => rfl⟩
  refine redefined_bind (.pure _) ?_
  rw [if_neg Bool.false_ne_true]
  dsimp only
  split
  · rename_i hunknown
    split
    · exact .rejects _ rfl _
    · refine (hb.expr.gives _ _).accepted (fun _ => .pure _) fun init' type => ?_
      refine (hinsert _).bind fun _ => .pure fun s₂ _ s₁ hs₂ s hinit hfree => ?_
      subst hs₂
      exact ⟨hfree, .inferred hunknown hinit⟩
  · rename_i hknown
    have hknown : h.type.isUnknown = false := by simpa using hknown
    refine (checkType_passes _ _).run.bind fun ok => (hinsert _).bind fun _ => ?_
    split
    · refine .pure fun s₂ _ s₁ hs₂ s htype hfree => ?_
      obtain ⟨hrun, rfl⟩ := htype
      subst hs₂
      exact ⟨hfree, .none hknown hrun⟩
    · refine (exprOf_passes hb.expr _ _).bind fun r => ?_
      obtain ⟨init', ok⟩ := r
      refine (hinsert _).bind fun _ => .pure fun s₄ _ s₃ hs₄ s₂ hinit s₁ hs₂ s htype hfree => ?_
      obtain ⟨hrun, rfl⟩ := htype
      obtain ⟨hinit⟩ := hinit
      subst hs₂ hs₄
      exact ⟨hfree, .declared hknown hrun hinit⟩

omit hcfg in
theorem returnStmt_passes (h : Head) (cs : List Node) :
    Passes (returnStmt below.expr h cs) fun s cs' s' => Returned B s cs cs' s' := by
  refine .get fun s₀ => .symbols fun t => ?_
  split
  · rename_i hreturns hfunction
    split
    · refine accepts_bind (.pure _) (.pure fun s _ hunit ht hs => ?_)
      subst ht hs
      exact .nothing hreturns hfunction hunit
    · refine (exprOf_passes hb.expr _ _).bind fun r => ?_
      obtain ⟨value', ok⟩ := r
      refine .pure fun s₁ _ s hv ht hs => ?_
      obtain ⟨hv⟩ := hv
      subst ht hs
      exact .value hreturns hfunction hv
  · exact .rejects _ rfl _

/-! ## Statements -/

theorem conditional_passes (h : Head) (cs : List Node) :
    Passes (conditional cfg below h cs) fun s cs' s' => ∃ condition rest condition' rest' s₁,
      cs = condition :: rest ∧ cs' = condition' :: rest' ∧
      OfType B (.basic .bool) s condition condition' s₁ ∧ Branches S s₁ rest rest' s' := by
  unfold conditional
  split
  · rename_i condition rest
    refine (exprOf_passes hb.expr _ _).bind fun ⟨condition', ok⟩ => ?_
    refine (branches_passes hcfg hb rest).bind fun rest' => .pure fun s₂ _ s₁ hrest s hc => ?_
    obtain ⟨hc⟩ := hc
    exact ⟨condition, rest, condition', rest', s₁, rfl, rfl, hc, hrest⟩
  · exact Passes.reports (.pure _) _ rfl

theorem loop_passes {h : Head} {cs} (fs : List (Component Node)) (b : Node)
    (hkind : h.kind = .whileLoop ∨ h.kind = .loop) :
    Passes (loop cfg below h cs) fun s cs' s' =>
      Performs B S s (.mk h cs fs b) (.mk h cs' fs b) s' := by
  unfold loop
  split
  · exact Passes.reports (.pure _) _ rfl
  · split
    · rename_i hwhile
      refine (exprOf_passes hb.expr _ _).bind fun r => ?_
      obtain ⟨condition', ok⟩ := r
      refine (loopBody_passes hcfg hb _).bind fun rest' => .pure fun s₂ _ s₁ hrest s hc => ?_
      obtain ⟨hc⟩ := hc
      exact .whileLoop hwhile hc hrest
    · rename_i hwhile
      exact (loopBody_passes hcfg hb _).mono fun s cs' s' hcs =>
        .loop (hkind.resolve_left hwhile) (List.cons_ne_nil _ _) hcs

/-- A statement that is analysed without errors is accepted, if the nodes below it are. -/
theorem stmtStep_passes : ∀ n : Node, Passes (stmtStep cfg below none n) fun s n' s' =>
    Performs B S s n n' s'
  | .absent => .rejects _ rfl _
  | .mk h cs fs b => by
    have hdeclares : ∀ {m : Analysis Unit}, Declares h cs fs m →
        (∀ s₀ : State, Ensures s₀.Grows m fun _ => True) →
        Passes (do m; return Node.mk h cs fs b) fun s n' s' =>
          Performs B S s (.mk h cs fs b) n' s' := fun hstep hm =>
      (Growing.passes (.of_ensures hm)).bind fun _ =>
        .pure fun s₁ _ s hrun => .declaration hstep hrun
    unfold stmtStep
    dsimp only
    split
    · rename_i hk
      refine (moduleDecl_passes hcfg hb h cs).bind fun cs' => .pure fun s₁ _ s hm => ?_
      obtain ⟨r, hfree, hbody, rfl⟩ := hm
      exact .module hk hfree hbody
    · rename_i hk
      exact hdeclares (.record (.inl hk)) fun s₀ => record_ensures (grows_kept s₀).defining h fs
    · rename_i hk
      exact hdeclares (.record (.inr hk)) fun s₀ => record_ensures (grows_kept s₀).defining h fs
    · rename_i hk; exact hdeclares (.enum hk) fun s₀ => enum_ensures (grows_kept s₀).defining h
    · rename_i hk; exact hdeclares (.variant hk) fun s₀ => variant_ensures (grows_kept s₀).defining h
    · rename_i hk
      exact (function_passes hcfg hb hk cs fs b).bind fun b' => .pure fun s₁ _ s h => h
    · rename_i hk; exact hdeclares (.foreign hk) fun s₀ => externItems_ensures (grows_kept s₀) cs
    · rename_i hk
      exact hdeclares (.aliasType hk) fun s₀ => aliasDecl_ensures (grows_kept s₀).defining h
    · rename_i hk
      exact (variableDecl_passes hb h .automatic cs).bind fun cs' =>
        .pure fun s₁ _ s ⟨hfree, hinit⟩ => .variable (hk ▸ rfl) hfree hinit
    · rename_i hk
      exact (variableDecl_passes hb h .static cs).bind fun cs' =>
        .pure fun s₁ _ s ⟨hfree, hinit⟩ => .variable (hk ▸ rfl) hfree hinit
    · rename_i hk
      exact (variableDecl_passes hb h .constant cs).bind fun cs' =>
        .pure fun s₁ _ s ⟨hfree, hinit⟩ => .variable (hk ▸ rfl) hfree hinit
    · rename_i hk
      exact (blockBody_passes hcfg hb .inherited cs).bind fun cs' =>
        .pure fun s₁ _ s hbody => .block (.inl ⟨hk, rfl⟩) hbody
    · rename_i hk
      exact (blockBody_passes hcfg hb .unsafely cs).bind fun cs' =>
        .pure fun s₁ _ s hbody => .block (.inr ⟨hk, rfl⟩) hbody
    · rename_i hk
      exact (conditional_passes hcfg hb h cs).bind fun cs' => .pure fun s₁ _ s
        ⟨condition, rest, condition', rest', s₂, hcs, hcs', hcondition, hrest⟩ => by
          subst hcs hcs'
          exact .conditional hk hcondition hrest
    · rename_i hk
      exact (loop_passes hcfg hb fs b (.inl hk)).bind fun cs' => .pure fun s₁ _ s h => h
    · rename_i hk
      exact (loop_passes hcfg hb fs b (.inr hk)).bind fun cs' => .pure fun s₁ _ s h => h
    · rename_i hk; exact hdeclares (.jump (.inl hk)) fun s₀ => jump_ensures (grows_kept s₀).reports h
    · rename_i hk; exact hdeclares (.jump (.inr hk)) fun s₀ => jump_ensures (grows_kept s₀).reports h
    · rename_i hk
      exact (returnStmt_passes hb h cs).bind fun cs' => .pure fun s₁ _ s h => .returned hk h
    · rename_i hk
      exact (assign_passes hb.expr h cs).approved (fun _ => .pure _) fun cs' =>
        .pure fun s₁ _ s hcs => .assignment hk hcs
    · exact .rejects _ rfl _
    · refine (hb.expr.gives _ _).accepted (fun _ => .pure _) fun n' type => ?_
      refine .pure fun s₁ _ s hn => .expression ?_ hn
      cases hk : h.kind <;> simp_all [Kind.isStatement]

end Rules

end TreeSema.Analysis
