import TreeSema.Proofs.Accept.Program
import TreeSema.Proofs.Again.Decl
import TreeSema.Proofs.Again.Expr

/-!
# Analysis is idempotent

What analysis has made of a program without errors is left alone when it is analysed again, and the
table that is built lists the same.

* `Below.Repeating`: what is known of the nodes below.
* `BodyOf.again`, `Performs.again`, …: one statement for each rule of acceptance.
* `belowAt_repeating`: statements are left alone at every level.
* `analyzeBy_idempotent`: a second analysis changes nothing.
-/
namespace TreeSema.Analysis

variable {α : Type}

/-! ## Scopes -/

theorem Resumes.inScope {m context} {s s₁ : State} {a : α}
    (hm : Resumes m { s with table := s.table.enter context } a s₁) :
    Resumes (Analysis.inScope context m) s a { s₁ with table := s₁.table.exit } :=
  (Resumes.modifyTable fun ht => Table.Rel.enter ht context).bind (hm.bind
    ((Resumes.modifyTable fun ht => Table.Rel.exit Entry.Lags.matching ht).bind .pure))

theorem Resumes.returning {m result} {s s₁ : State} {a : α}
    (hm : Resumes m { s with returns := result :: s.returns } a s₁) :
    Resumes (Analysis.returning result m) s a { s₁ with returns := s₁.returns.tail } := by
  refine .bind (fun _ hu => ⟨_, rfl, hu.withReturns (congrArg (result :: ·) hu.returns)⟩) ?_
  exact hm.bind (.bind (fun _ hu => ⟨_, rfl, hu.withReturns (congrArg List.tail hu.returns)⟩) .pure)

theorem redefined_again {s : State} {name} (loc : Location) (hfree : s.table.lookup name = none) :
    Resumes (redefined name loc) s false s := by
  refine .symbols fun ht => ?_
  rw [ht.lookup_eq_none hfree]
  exact .pure

/-- What is accepted of the nodes below is found again, and resembles what it was. -/
structure Below.Repeating (B : Judgement) (S : StmtJudgement) (below : Below) : Prop where
  expr : below.expr.Repeating B
  stmt : ∀ {s u : State} {n n' : Node} {s' : State}, S s n n' s' → u.Trails s →
    Repeats (below.stmt none n') u n' s'
  resembles : ∀ {s : State} {n n' : Node} {s' : State}, S s n n' s' → Resembles n n'

section Rules

variable {B : Judgement} {S : StmtJudgement} {cfg : Config} {below : Below}
  (hcfg : cfg.looksAhead = false) (hb : below.Repeating B S) {s s' : State}

include hb

variable {ns ns' cs cs' : List Node} {h : Head}

/-! ## Bodies -/

theorem Below.Repeating.resumes {n n'} (hn : S s n n' s') :
    Resumes (below.stmt none n') s n' s' := fun _ => hb.stmt hn

theorem Statements.again (h : Statements S s ns ns' s') :
    Resumes (statements below (ns'.map fun n => (none, n))) s ns' s' := by
  induction h with
  | nil => exact .pure
  | cons hn _ ih => exact (hb.resumes hn).bind (ih.bind .pure)

include hcfg

theorem BodyOf.again (h : BodyOf S s ns ns' s') : Resumes (body cfg below ns') s ns' s' := by
  obtain ⟨s₁, hns, hsettled⟩ := h
  have hahead : lookAhead cfg below ns' = ns'.map fun n => (none, n) := by simp [lookAhead, hcfg]
  refine .get fun hu => ?_
  rw [hahead, hu.declared]
  exact (hns.again hb).bind (((settleDeclared_follows _).run hsettled).bind .pure)

/-- A body in a scope of its own. -/
theorem Scoped.again_body {context} (h : Scoped context (fun s s' => BodyOf S s ns ns' s') s s') :
    Resumes (inScope context (body cfg below ns')) s ns' s' := by
  obtain ⟨s₁, hbody, rfl⟩ := h
  exact .inScope (hbody.again hcfg hb)

/-- The table of a module is the same up to values. -/
theorem moduleDecl_again {r} (hfree : s.table.lookup h.name = none) (hbody : BodyOf S {} cs cs' r) :
    Resumes (moduleDecl cfg below h none cs') s cs' { s with
      findings := s.findings ++ r.findings
      table := s.table.insert (.definition h.name (.moduleDef (some (.table r.table))) h.loc) } := by
  intro u hu
  obtain ⟨r', hrun, hr⟩ := hbody.again hcfg hb State.trails_init
  obtain ⟨u₁, hredefined, hu₁⟩ := redefined_again h.loc hfree hu
  have hkept : ModuleRun.ofBody cfg below cs' = ⟨cs', r'.table, r'.findings⟩ := by
    rw [ofBody_eq, hrun]
  refine ⟨_, (moduleDecl_free hredefined).trans (by rw [Option.getD_none, hkept]), ?_⟩
  exact {
    table := hu₁.table.insert (.module h.name h.loc hr.table)
    returns := hu₁.returns
    declared := hu₁.declared
    clean := ⟨List.forall_mem_append.2 ⟨hu₁.clean.findings, hr.clean.findings⟩,
      hu₁.clean.depthReported⟩ }

theorem Branch.again {n n'} (h : Branch S s n n' s') : Resumes (branch cfg below n') s n' s' := by
  cases h with
  | block hk hbody =>
    simp only [branch, Node.kind?, hk, if_true]
    exact (hbody.again hcfg hb).bind .pure
  | single hk hn =>
    have hk' : n'.kind? ≠ some .block := fun hk' => hk ((hb.resembles hn).kind_eq hk' rfl).1
    simp only [branch, hk', if_false]
    exact hb.resumes hn

theorem Branches.again (h : Branches S s ns ns' s') :
    Resumes (branches cfg below ns') s ns' s' := by
  induction h with
  | nil => exact .pure
  | cons hn _ ih => exact (hn.again hcfg hb).bind (ih.bind .pure)

omit hcfg hb in
theorem LoopBody.length_eq (h : LoopBody S s ns ns' s') : ns'.length = ns.length := by
  induction h with
  | nil => rfl
  | block => rfl
  | single _ hbody =>
    obtain ⟨s₁, ⟨s₂, hns, -⟩, -⟩ := hbody
    cases hns with
    | cons _ hrest => cases hrest; rfl
  | cons _ ih => exact congrArg Nat.succ ih

theorem LoopBody.again (h : LoopBody S s ns ns' s') :
    Resumes (loopBody cfg below ns') s ns' s' := by
  induction h with
  | nil => exact .pure
  | block hk hbody =>
    obtain ⟨s₁, hbody, rfl⟩ := hbody
    refine .symbols fun ht => ?_
    rw [ht.context]
    refine .inScope ?_
    rw [Node.kind?, if_pos (congrArg some hk)]
    exact (hbody.again hcfg hb).bind .pure
  | single hk hbody =>
    obtain ⟨s₁, hbody, rfl⟩ := hbody
    obtain ⟨s₂, hns, hsettled⟩ := hbody
    cases hns with
    | cons hn hrest =>
      cases hrest
      refine .symbols fun ht => ?_
      rw [ht.context]
      refine .inScope ?_
      rw [if_neg fun hk' => hk ((hb.resembles hn).kind_eq hk' rfl).1]
      exact BodyOf.again hcfg hb ⟨s₂, .cons hn .nil, hsettled⟩
  | @cons s' n m rest rest' hrest ih =>
    cases rest' with
    | nil => cases hrest.length_eq
    | cons n' rest' => exact ih.bind .pure

/-! ## Functions and variables -/

theorem FunctionBody.again {bh params bcs bcs' bfs bb}
    (hbody : Scoped (functionContext h) (FunctionBody S h params bcs bcs') s s') :
    Resumes (functionBody h params (.mk bh bcs' bfs bb) (body cfg below)) s
      (.mk bh bcs' bfs bb) s' := by
  obtain ⟨s₁, ⟨s₂, s₃, hbind, hcs, rfl⟩, rfl⟩ := hbody
  exact .inScope (((bindFormals_follows _).run hbind).bind
    ((Resumes.returning (hcs.again hcfg hb)).bind .pure))

omit hcfg in
theorem Initializer.again {storage} (hfree : s.table.lookup h.name = Option.none)
    (hinit : Initializer B h storage s cs cs' s') :
    Resumes (variableDecl below.expr h storage cs') s cs' s' := by
  have hinsert : ∀ {s : State} (e : SymbolEntry),
      Resumes (insert e) s () { s with table := s.table.insert e } :=
    fun e => .modifyTable fun ht => ht.insert (.refl e)
  refine (redefined_again h.loc hfree).bind ?_
  rw [if_neg Bool.false_ne_true]
  dsimp only
  cases hinit with
  | inferred hunknown hinit =>
    rw [if_pos hunknown]
    exact (hb.expr.resumes hinit).bind ((hinsert _).bind .pure)
  | none hknown htype =>
    rw [if_neg (by simp [hknown])]
    exact ((Follows.respected.checkType _ _).run htype).bind ((hinsert _).bind .pure)
  | declared hknown htype hinit =>
    rw [if_neg (by simp [hknown])]
    refine ((Follows.respected.checkType _ _).run htype).bind ((hinsert _).bind ?_)
    exact (hinit.again hb.expr).bind ((hinsert _).bind .pure)

omit hcfg in
theorem Returned.again (h : Head) (hcs : Returned B s cs cs' s') :
    Resumes (returnStmt below.expr h cs') s cs' s' := by
  refine .get fun hu => .symbols fun ht => ?_
  rw [hu.returns, ht.context]
  cases hcs with
  | nothing hreturns hfunction hunit =>
    rw [hreturns, hfunction]
    exact (accepts_again h.loc hunit).bind .pure
  | value hreturns hfunction hvalue =>
    rw [hreturns, hfunction]
    exact (hvalue.again hb.expr).bind .pure

/-! ## Statements -/

omit hcfg hb in
theorem Declares.step_eq {fs step} (hstep : Declares h cs fs step) (run : Option ModuleRun)
    (b : Node) : stmtStep cfg below run (.mk h cs fs b) = do step; return .mk h cs fs b := by
  cases hstep with
  | record hk | jump hk => rcases hk with hk | hk <;> simp only [stmtStep, hk]
  | enum hk | variant hk | foreign hk | aliasType hk => simp only [stmtStep, hk]

omit hcfg hb in
theorem stmtStep_variable {storage} (hk : declarationKind storage = some h.kind)
    (run : Option ModuleRun) (cs : List Node) (fs : List (Component Node)) (b : Node) :
    stmtStep cfg below run (.mk h cs fs b) = do
      return .mk h (← variableDecl below.expr h storage cs) fs b := by
  unfold declarationKind at hk
  split at hk
  case h_4 => cases hk
  all_goals
    have hkind := (Option.some.inj hk).symm
    simp only [stmtStep, hkind]

omit hcfg hb in
theorem stmtStep_expression (hk : h.kind.isStatement = false) (run : Option ModuleRun)
    (cs : List Node) (fs : List (Component Node)) (b : Node) :
    stmtStep cfg below run (.mk h cs fs b) = do
      return (← below.expr (.mk h cs fs b) .unknown).1 := by
  unfold stmtStep
  dsimp only
  split
  case h_22 => rfl
  all_goals
    rename_i hkind
    rw [hkind] at hk
    cases hk

/-- What became of an accepted statement is left alone. -/
theorem Performs.again {n n'} (h : Performs B S s n n' s') :
    Resumes (stmtStep cfg below none n') s n' s' := by
  cases h with
  | module hk hfree hbody =>
    simp only [stmtStep, hk]
    exact (moduleDecl_again hcfg hb hfree hbody).bind .pure
  | declaration hstep hrun =>
    rw [hstep.step_eq]
    exact (hstep.follows.run hrun).bind .pure
  | signature hk hfree hsig =>
    simp only [stmtStep, hk]
    refine .bind (a := .absent) ?_ .pure
    exact (redefined_again _ hfree).bind (((declareFunction_follows _ _).run hsig).bind .pure)
  | @function _ _ _ bh _ _ bcs' _ bfs bb _ hk hfree hsig hlocal hbody =>
    simp only [stmtStep, hk]
    refine .bind (a := .mk bh bcs' bfs bb) ?_ .pure
    refine (redefined_again _ hfree).bind (((declareFunction_follows _ _).run hsig).bind ?_)
    rw [if_neg (by simp [Node.isAbsent]), if_neg (by simp [hlocal])]
    exact FunctionBody.again hcfg hb hbody
  | «variable» hk hfree hinit =>
    rw [stmtStep_variable hk]
    exact (hinit.again hb hfree).bind .pure
  | block hk hbody =>
    rcases hk with ⟨hk, rfl⟩ | ⟨hk, rfl⟩
    all_goals
      simp only [stmtStep, hk, blockBody]
      refine .bind (.symbols fun ht => ?_) .pure
      rw [ht.context]
      exact hbody.again_body hcfg hb
  | conditional hk hcondition hrest =>
    simp only [stmtStep, hk]
    refine .bind ?_ .pure
    exact (hcondition.again hb.expr).bind ((hrest.again hcfg hb).bind .pure)
  | whileLoop hk hcondition hrest =>
    simp only [stmtStep, hk, Analysis.loop, if_true]
    refine .bind ?_ .pure
    exact (hcondition.again hb.expr).bind ((hrest.again hcfg hb).bind .pure)
  | @loop _ _ cs cs' _ _ hk hsome hcs =>
    cases cs' with
    | nil => exact absurd (List.length_eq_zero_iff.1 hcs.length_eq.symm) hsome
    | cons first rest =>
      simp only [stmtStep, hk, Analysis.loop, reduceCtorEq, if_false]
      exact (hcs.again hcfg hb).bind .pure
  | returned hk hcs =>
    simp only [stmtStep, hk]
    exact (hcs.again hb _).bind .pure
  | assignment hk hcs =>
    simp only [stmtStep, hk]
    exact (hcs.again hb.expr).bind .pure
  | expression hk hn =>
    obtain ⟨h', cs', fs', b', rfl, hk'⟩ := (hb.expr.resembles hn).expression hk
    rw [stmtStep_expression hk']
    exact (hb.expr.resumes hn).bind .pure

end Rules

/-! ## Programs -/

section Levels

variable {cfg : Config} (schedule : Schedule)

theorem belowAt_resembles {k : Nat} {s s' n n'} (h : (belowAt cfg schedule k).Gives s n n' s') :
    Resembles n n' := by
  have hslot : SlotValid (fun _ => True) Resembles (none, n) := nofun
  have hrelates := ((belowAt_relates cfg schedule trivial_kept trivial (resembles_rewriting _)
    trivial_kept (resembles_rewriting _) k).stmt hslot s trivial).2
  rwa [h.run] at hrelates

variable (hcfg : cfg.looksAhead = false)

include hcfg

/-- What was accepted of statements is found again, at every level. -/
theorem belowAt_repeating : ∀ k, (belowAt cfg schedule k).Repeating (exprAt cfg k).Gives
    (belowAt cfg schedule k).Gives
  | 0 => {
    expr := exprAt_repeating cfg 0
    stmt := fun hn _ => (((belowAt_elaborates schedule hcfg 0).stmt _).of_run hn).elim
    resembles := belowAt_resembles schedule }
  | k + 1 => {
    expr := exprAt_repeating cfg (k + 1)
    stmt := fun hn hu =>
      ((stmtStep_passes hcfg (belowAt_honest schedule hcfg k) _).of_run hn).again hcfg
        (belowAt_repeating k) hu
    resembles := belowAt_resembles schedule }

/-- What became of a program without errors is left alone. -/
theorem program_again {tree tree' s} (h : CleanRun (program cfg schedule tree) {} tree' s) :
    Resumes (program cfg schedule tree') {} tree' s := by
  obtain ⟨hkind, cs', rfl, hcs⟩ :=
    (program_passes schedule hcfg tree (belowAt_honest schedule hcfg _)).of_run h rfl
  cases tree with
  | absent => cases hkind
  | mk hd cs fs b =>
    have hkind' : (Node.withChildren cs' (.mk hd cs fs b)).kind? = some .program := hkind
    unfold program
    rw [if_pos hkind']
    exact (hcs.again hcfg (belowAt_repeating schedule hcfg _)).bind .pure

end Levels

/-- Analysis of what an analysis without errors has made of a program finds no errors and changes
nothing, and its table lists the same. -/
theorem analyzeBy_idempotent (tree : Node) (schedule schedule' : Schedule) (cfg : Config)
    (hok : (tree.analyzeBy schedule cfg).diagnostics.hasErrors = false) :
    let once := tree.analyzeBy schedule cfg
    let twice := once.tree.analyzeBy schedule' cfg
    twice.diagnostics.hasErrors = false ∧ twice.tree = once.tree ∧
      twice.table.listing = once.table.listing := by
  have hclean := (hasErrors_eq_false_iff cfg schedule tree).1 hok
  rcases hseq : program { cfg with jobs := 1 } .written tree {} with ⟨tree', s⟩
  have honce : program cfg schedule tree {} = (tree', s) :=
    (program_eq_sequential cfg schedule hclean).trans hseq
  rw [hseq] at hclean
  obtain ⟨u, hrun, hu⟩ := program_again .written (looksAhead_one cfg) ⟨hseq, hclean⟩
    State.trails_init
  have hclean' : (program { cfg with jobs := 1 } .written tree' {}).2.Clean := by
    rw [hrun]
    exact hu.clean
  have htwice : program cfg schedule' tree' {} = (tree', u) :=
    (program_eq_sequential cfg schedule' hclean').trans hrun
  have htree : (tree.analyzeBy schedule cfg).tree = tree' := by rw [analyzeBy_eq, honce]
  dsimp only
  rw [htree]
  refine ⟨(hasErrors_eq_false_iff cfg schedule' tree').2 hclean', ?_, ?_⟩
  · rw [analyzeBy_eq, htwice]
  · -- the tables differ in values, which a listing does not show
    rw [analyzeBy_eq, analyzeBy_eq, honce, htwice]
    rw [← Symbols.listing_filled, hu.table.filled_eq, Symbols.listing_filled]

/-- A variable gets its value in an argument of a call. A second analysis does not look there, and
warns where the variable is read. -/
def assignedInArgument : String :=
  "(program (module M (fn f (params (b ())) i32 (block (return 1)))) (var mut x bool)
    (path M (call f (assign = x true))) (if x (assign = x false)))"

theorem analyzeBy_idempotent_assignedInArgument : ∃ tree,
    Node.read assignedInArgument "m" = .ok tree ∧
    let once := tree.analyzeBy .written {}
    let twice := once.tree.analyzeBy .written {}
    (once.diagnostics.hasErrors = false ∧ once.diagnostics ≠ twice.diagnostics) ∧
      twice.diagnostics.hasErrors = false ∧ twice.tree = once.tree ∧
      twice.table.listing = once.table.listing := by
  have hgood : (match Node.read assignedInArgument "m" with
      | .ok tree => decide
        ((tree.analyzeBy .written {}).diagnostics.hasErrors = false ∧
          (tree.analyzeBy .written {}).diagnostics ≠
            ((tree.analyzeBy .written {}).tree.analyzeBy .written {}).diagnostics)
      | .error _ => false) = true := by decide +kernel
  rcases hread : Node.read assignedInArgument "m" with e | tree
  · rw [hread] at hgood
    cases hgood
  · rw [hread] at hgood
    have hgood := of_decide_eq_true hgood
    exact ⟨tree, rfl, hgood, analyzeBy_idempotent tree .written .written {} hgood.1⟩

end TreeSema.Analysis
