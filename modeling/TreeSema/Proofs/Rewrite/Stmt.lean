import TreeSema.Proofs.Rewrite.Decl

/-!
# What analysis makes of statements

The statements of a body are analysed one after the other, those of a module in a run of their own,
possibly ahead. `ModuleRun.Valid` is what such a run has to be for the module to use it, and
`Below.Relates` what analysis of the nodes below has to do.

* `statements_relates`: statements, each related to its outcome.
* `stmtAt_relates`: analysis of a statement relates it to its outcome, at every level.
* `program_relates`: analysis relates a program to its outcome.
-/
namespace TreeSema.Analysis

variable {J I : State → Prop} {R : Node → Node → Prop}

/-- A run over the body of a module: its outcome is related to the body, and the state in which it
ended had a property. -/
structure ModuleRun.Valid (J : State → Prop) (R : Node → Node → Prop) (cs : List Node)
    (run : ModuleRun) : Prop where
  nodes : List.Forall₂ R cs run.nodes
  ended : ∃ s, J s ∧ s.table = run.table ∧ s.findings = run.findings

/-- A statement, and a run over its body if it was analysed ahead. -/
def SlotValid (J : State → Prop) (R : Node → Node → Prop) (slot : Option ModuleRun × Node) : Prop :=
  ∀ run, slot.1 = some run → run.Valid J R slot.2.children

/-- Analysis of the nodes below keeps a property of states and relates nodes to what it makes of
them. -/
structure Below.Relates (J I : State → Prop) (R : Node → Node → Prop) (below : Below) : Prop where
  expr : ExprRule.Relates I R below.expr
  stmt : ∀ {run : Option ModuleRun} {n : Node}, SlotValid J R (run, n) →
    Ensures I (below.stmt run n) fun n' => R n n'
  ahead : ∀ nodes : List Node, (below.ahead nodes).Valid J R nodes

section Rules

variable {below : Below} (cfg : Config)

/-! ## Bodies -/

/-- A slot holds a run over the body of its statement, or none. -/
def AheadOf (below : Below) (slot : Option ModuleRun × Node) : Prop :=
  ∀ run, slot.1 = some run → run = below.ahead slot.2.children

/-- Analysing one module ahead fills its slot. -/
theorem runAhead_aheadOf {slots} (hs : ∀ slot ∈ slots, AheadOf below slot) (i : Nat) :
    ∀ slot ∈ runAhead below slots i, AheadOf below slot := by
  unfold runAhead
  induction slots generalizing i with
  | nil => simp
  | cons slot slots ih =>
    obtain ⟨hslot, hslots⟩ := List.forall_mem_cons.1 hs
    cases i with
    | zero => exact List.forall_mem_cons.2 ⟨fun run hrun => (Option.some.inj hrun).symm, hslots⟩
    | succ i => exact List.forall_mem_cons.2 ⟨hslot, ih hslots i⟩

theorem map_runAhead (below : Below) (slots : List (Option ModuleRun × Node)) (i : Nat) :
    (runAhead below slots i).map (·.2) = slots.map (·.2) := by
  unfold runAhead
  induction slots generalizing i with
  | nil => simp
  | cons slot slots ih => cases i <;> simp [ih]

/-- What holds of the statements of a body and is kept when a module is analysed ahead holds after
all of that. -/
theorem lookAhead_induction {P : List (Option ModuleRun × Node) → Prop} {nodes : List Node}
    (hnone : P (nodes.map fun n => (none, n)))
    (hstep : ∀ slots i, P slots → P (runAhead below slots i)) : P (lookAhead cfg below nodes) := by
  unfold lookAhead
  dsimp only
  split
  · exact List.foldlRecOn _ _ hnone fun slots h i _ => hstep slots i h
  · exact hnone

/-- Whatever the schedule, looking ahead leaves each statement without a run or with that over its
body. -/
theorem lookAhead_aheadOf (below : Below) (nodes : List Node) :
    ∀ slot ∈ lookAhead cfg below nodes, AheadOf below slot := by
  refine lookAhead_induction (P := fun slots => ∀ slot ∈ slots, AheadOf below slot) cfg ?_
    fun _ i h => runAhead_aheadOf h i
  exact List.forall_mem_map.2 fun _ _ => nofun

/-- Looking ahead changes no statement. -/
theorem map_lookAhead (below : Below) (nodes : List Node) :
    (lookAhead cfg below nodes).map (·.2) = nodes := by
  refine lookAhead_induction (P := fun slots => slots.map (·.2) = nodes) cfg ?_ fun slots i h =>
    (map_runAhead below slots i).trans h
  simp [List.map_map, Function.comp_def]

theorem statements_relates (hb : below.Relates J I R) :
    ∀ {slots : List (Option ModuleRun × Node)}, (∀ slot ∈ slots, SlotValid J R slot) →
      Ensures I (statements below slots) fun ns => List.Forall₂ R (slots.map (·.2)) ns
  | [], _ => .pure .nil
  | (run, n) :: rest, hs => by
    obtain ⟨hn, hrest⟩ := List.forall_mem_cons.1 hs
    exact (hb.stmt hn).bind fun n' hn' =>
      (statements_relates hb hrest).bind fun rest' hrest' => .pure (.cons hn' hrest')

theorem body_relates (hI : Kept J I) (hb : below.Relates J I R) (nodes : List Node) :
    Ensures I (body cfg below nodes) fun ns => List.Forall₂ R nodes ns := by
  refine get_ensures.bind fun s _ => ?_
  have hslots : ∀ slot ∈ lookAhead cfg below nodes, SlotValid J R slot := fun slot hslot run hrun =>
    lookAhead_aheadOf cfg below nodes slot hslot run hrun ▸ hb.ahead _
  refine (statements_relates hb hslots).bind fun ns hns => ?_
  rw [map_lookAhead] at hns
  exact (settleDeclared_ensures hI.toFramed _).bind fun _ _ => .pure hns

/-- The body of a module is analysed in a run that starts with nothing. -/
theorem ofBody_valid (hJ : Kept J J) (hinit : J {}) (hb : below.Relates J J R) (nodes : List Node) :
    (ModuleRun.ofBody cfg below nodes).Valid J R nodes :=
  have h := body_relates cfg hJ hb nodes {} hinit
  ⟨h.2, _, h.1, rfl, rfl⟩

variable (hJ : Kept J J) (hinit : J {}) (hbJ : below.Relates J J R)
variable (hI : Kept J I) (hR : Rewriting I R) (hb : below.Relates J I R)

include hJ hinit hbJ hI hR in
theorem moduleDecl_relates (h : Head) {run cs} (hrun : ∀ r, run = some r → r.Valid J R cs) :
    Ensures I (moduleDecl cfg below h run cs) fun cs' => List.Forall₂ R cs cs' := by
  refine (redefined_ensures hI.reports _ _).bind fun taken _ => ?_
  have habsorb : ∀ run : ModuleRun, run.Valid J R cs → Ensures I (do
      modify fun s => { s with findings := s.findings ++ run.findings }
      insert (.definition h.name (.moduleDef (some (.table run.table))) h.loc)
      return run.nodes) fun cs' => List.Forall₂ R cs cs' := by
    intro run hvalid s hs
    obtain ⟨r, hr, htable, hfindings⟩ := hvalid.ended
    have := hI.module h.name h.loc hr hs
    rw [htable, hfindings] at this
    exact ⟨this, hvalid.nodes⟩
  cases run with
  | none =>
    cases taken with
    | true => exact .pure (hR.refl_all cs)
    | false => exact habsorb _ (ofBody_valid cfg hJ hinit hbJ cs)
  | some run =>
    cases taken with
    | true => exact .pure (hrun run rfl).nodes
    | false => exact habsorb run (hrun run rfl)

/-! ## Blocks, conditionals and loops -/

include hI hb

theorem blockBody_relates (safety : Safety) (nodes : List Node) :
    Ensures I (blockBody cfg below safety nodes) fun ns => List.Forall₂ R nodes ns :=
  symbols_ensures.bind fun _ _ => inScope_ensures hI _ (body_relates cfg hI hb nodes)

include hR

theorem branch_relates (n : Node) : Ensures I (branch cfg below n) fun n' => R n n' := by
  unfold branch
  split
  · exact (body_relates cfg hI hb n.children).bind fun _ hcs => .pure (hR.withChildren hcs)
  · exact hb.stmt nofun

theorem branches_relates : ∀ ns : List Node,
    Ensures I (branches cfg below ns) fun ns' => List.Forall₂ R ns ns'
  | [] => .pure .nil
  | n :: rest =>
    (branch_relates cfg hI hR hb n).bind fun _ hn =>
      (branches_relates rest).bind fun _ hrest => .pure (.cons hn hrest)

theorem conditional_relates (h : Head) : ∀ cs : List Node,
    Ensures I (conditional cfg below h cs) fun cs' => List.Forall₂ R cs cs'
  | [] => (hI.report_pure (P := fun r => r.1 = []) _ _ rfl).bind
      fun r hr => .pure (by rw [hr]; exact .nil)
  | condition :: rest =>
    (exprOf_relates hI.toStable hR hb.expr _ condition).bind fun ⟨_, _⟩ hc =>
      (branches_relates cfg hI hR hb rest).bind fun _ hrest => .pure (.cons hc hrest)

theorem loopBody_relates : ∀ ns : List Node,
    Ensures I (loopBody cfg below ns) fun ns' => List.Forall₂ R ns ns'
  | [] => .pure .nil
  | [n] => by
    refine symbols_ensures.bind fun t _ => inScope_ensures hI _ ?_
    split
    · exact (body_relates cfg hI hb n.children).bind fun _ hcs =>
        .pure (.cons (hR.withChildren hcs) .nil)
    · exact body_relates cfg hI hb [n]
  | n :: m :: rest =>
    (loopBody_relates (m :: rest)).bind fun _ hrest => .pure (.cons (hR.refl n) hrest)

theorem loop_relates (h : Head) : ∀ cs : List Node,
    Ensures I (loop cfg below h cs) fun cs' => List.Forall₂ R cs cs'
  | [] => (hI.report_pure (P := fun r => r.1 = []) _ _ rfl).bind
      fun r hr => .pure (by rw [hr]; exact .nil)
  | first :: rest => by
    rw [loop]
    split
    · refine (exprOf_relates hI.toStable hR hb.expr _ first).bind fun r hc => ?_
      obtain ⟨first', ok⟩ := r
      exact (loopBody_relates cfg hI hR hb rest).bind fun _ hrest => .pure (.cons hc hrest)
    · exact loopBody_relates cfg hI hR hb _

omit cfg hR hb in
theorem externItems_ensures : ∀ ns : List Node, Ensures I (externItems ns) fun _ => True
  | [] => .pure trivial
  | n :: rest => by
    have hfunction : ∀ h b, Ensures I (function h .foreignFn b pure) fun _ => True := fun h b =>
      (function_relates (R := fun _ _ => True) hI ⟨fun _ => trivial, fun _ _ _ => trivial,
        fun _ _ _ _ => trivial⟩ h _ b fun cs => .pure (List.forall₂_same.2 fun _ _ => trivial)).weaken
    unfold externItems
    split
    · exact (hI.report_ensures _ _).bind fun _ _ => externItems_ensures rest
    · split
      · exact (hfunction _ _).bind fun _ _ => externItems_ensures rest
      · exact (foreignVariable_ensures hI.binds _ _).bind fun _ _ => externItems_ensures rest
      · exact (foreignVariable_ensures hI.binds _ _).bind fun _ _ => externItems_ensures rest
      · exact (hI.report_ensures _ _).bind fun _ _ => externItems_ensures rest

/-! ## Statements -/

include hJ hinit hbJ

/-- Analysis of a statement relates it to its outcome, if analysis of the nodes below it does. -/
theorem stmtStep_relates {run} : ∀ {n : Node}, SlotValid J R (run, n) →
    Ensures I (stmtStep cfg below run n) fun n' => R n n'
  | .absent, _ => hI.report_pure _ _ (hR.refl _)
  | .mk h cs fs b, hrun => by
    have hsame : Ensures I (pure (Node.mk h cs fs b)) fun n' => R (.mk h cs fs b) n' :=
      .pure (hR.refl _)
    have haround : ∀ operands : Analysis (List Node),
        (Ensures I operands fun cs' => List.Forall₂ R cs cs') →
        Ensures I (do return Node.mk h (← operands) fs b) fun n' => R (.mk h cs fs b) n' :=
      fun operands ho => ho.bind fun _ hcs => .pure (hR.operands hcs)
    unfold stmtStep
    dsimp only
    split
    · exact haround _ (moduleDecl_relates cfg hJ hinit hbJ hI hR h hrun)
    · exact (record_ensures hI.defining h fs).bind fun _ _ => hsame
    · exact (record_ensures hI.defining h fs).bind fun _ _ => hsame
    · exact (enum_ensures hI.defining h).bind fun _ _ => hsame
    · exact (variant_ensures hI.defining h).bind fun _ _ => hsame
    · exact (function_relates hI hR h _ b (body_relates cfg hI hb)).bind fun _ hb' =>
        .pure (hR.keep (hR.refl_all cs) (hR.refl_fields fs) hb')
    · exact (externItems_ensures hI cs).bind fun _ _ => hsame
    · exact (aliasDecl_ensures hI.defining h).bind fun _ _ => hsame
    · exact haround _ (variableDecl_relates hI.binds hR hb.expr h _ cs)
    · exact haround _ (variableDecl_relates hI.binds hR hb.expr h _ cs)
    · exact haround _ (variableDecl_relates hI.binds hR hb.expr h _ cs)
    · exact haround _ (blockBody_relates cfg hI hb _ cs)
    · exact haround _ (blockBody_relates cfg hI hb _ cs)
    · exact haround _ (conditional_relates cfg hI hR hb h cs)
    · exact haround _ (loop_relates cfg hI hR hb h cs)
    · exact haround _ (loop_relates cfg hI hR hb h cs)
    · exact (jump_ensures hI.reports h).bind fun _ _ => hsame
    · exact (jump_ensures hI.reports h).bind fun _ _ => hsame
    · exact haround _ (returnStmt_relates hI.toStable hR hb.expr h cs)
    · exact (Level.assign_judges ⟨hI.judging, hR, hb.expr⟩ ‹_› cs).ensures.bind fun _ hcs => .pure (hR.operands hcs)
    · exact hI.report_pure _ _ (hR.refl _)
    · exact (hb.expr _ _).bind fun _ hn => .pure hn

end Rules

variable (cfg : Config) (schedule : Schedule) (hJ : Kept J J) (hinit : J {}) (hRJ : Rewriting J R)

include hJ hinit hRJ

/-- Analysis of nodes relates them to their outcomes, at every level: first in the runs over the
bodies of modules. -/
theorem belowAt_relates_self : ∀ k, (belowAt cfg schedule k).Relates J J R
  | 0 => {
    expr := exprAt_relates hJ.toStable hRJ cfg 0
    stmt := fun _ => (hJ.refuse_ensures cfg _).bind fun _ _ => .pure (hRJ.refl _)
    ahead := fun nodes => ⟨hRJ.refl_all nodes, {}, hinit, rfl, rfl⟩ }
  | k + 1 =>
    have hb := belowAt_relates_self k
    { expr := exprAt_relates hJ.toStable hRJ cfg (k + 1)
      stmt := stmtStep_relates cfg hJ hinit hb hJ hRJ hb
      ahead := ofBody_valid cfg hJ hinit hb }

theorem belowAt_relates (hI : Kept J I) (hR : Rewriting I R) : ∀ k,
    (belowAt cfg schedule k).Relates J I R
  | 0 => {
    expr := exprAt_relates hI.toStable hR cfg 0
    stmt := fun _ => (hI.refuse_ensures cfg _).bind fun _ _ => .pure (hR.refl _)
    ahead := (belowAt_relates_self cfg schedule hJ hinit hRJ 0).ahead }
  | k + 1 =>
    have hbJ := belowAt_relates_self cfg schedule hJ hinit hRJ
    { expr := exprAt_relates hI.toStable hR cfg (k + 1)
      stmt := stmtStep_relates cfg hJ hinit (hbJ k) hI hR (belowAt_relates hI hR k)
      ahead := (hbJ (k + 1)).ahead }

/-- Analysis relates a program to its outcome. -/
theorem program_relates (tree : Node) :
    Ensures J (program cfg schedule tree) fun tree' => R tree tree' := by
  unfold program
  split
  · have hb := belowAt_relates_self cfg schedule hJ hinit hRJ cfg.depthLimit
    exact (body_relates cfg hJ hb tree.children).bind fun _ hcs => .pure (hRJ.withChildren hcs)
  · exact hJ.report_pure _ _ (hRJ.refl _)

end TreeSema.Analysis
