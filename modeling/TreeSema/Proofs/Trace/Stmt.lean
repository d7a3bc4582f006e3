import TreeSema.Proofs.Trace.Moments

/-!
# Statements change states through their parts

What a statement does to a state, apart from what the level below does with its parts, is one of a
few things: it reports something, declares something, binds a variable, takes in the table of a
module, or opens and closes a scope, a function or a body. `Moves` lists them, each with what is
known when it is done, so that whatever they keep and the tasks keep is kept by every statement.

* `Moves`: from one state to another through tasks and in these ways.
* `stmtStep_moves`: a statement other than an assignment moves through its parts.
* `Task.parts_cases`: what every task comes to.
* `Reached.kept`: what statements keep holds in every state that is reached.
* `Task.after_adds`: whatever is opened is closed, and findings are only added.
* `Moves.sameOpen`: the same scopes and functions are open before and after.
-/
namespace TreeSema.Analysis

variable {α β : Type} {cfg : Config} {schedule : Schedule} {below : Below} {P : Node → Prop}
  {s s₁ s' : State} {ts ts' : List Task}

/-! ## What is kept -/

/-- What statements keep, and what holds of a state with nothing in it, holds after if it held
before. -/
def State.Evolves (s s' : State) : Prop :=
  ∀ I : State → Prop, Kept I I → I {} → I s → I s'

namespace State.Evolves

theorem refl (s : State) : s.Evolves s := fun _ _ _ h => h

theorem trans {s₁ s₂ s₃ : State} (h : s₁.Evolves s₂) (h' : s₂.Evolves s₃) : s₁.Evolves s₃ :=
  fun I hI hinit h₁ => h' I hI hinit (h I hI hinit h₁)

theorem of_ensures {m} {Q : α → Prop} (h : ∀ I : State → Prop, Kept I I → Ensures I m Q)
    (s : State) : s.Evolves (m s).2 := fun I hI _ hs => (h I hI s hs).1

end State.Evolves

theorem State.Notes.evolves (h : s.Notes P s') : s.Evolves s' := by
  intro I hI _ hs
  obtain ⟨fs, -, rfl⟩ := h
  induction fs generalizing s with
  | nil => simpa using hs
  | cons f fs ih => simpa using ih (hI.report f hs)

theorem exprAt_evolves (k : Nat) (n : Node) (expected : Ty) (s : State) :
    s.Evolves (exprAt cfg k n expected s).2 :=
  .of_ensures (fun _ hI => exprAt_relates hI.toStable (trivial_rewriting _) cfg k n expected) s

theorem stmtAt_evolves {k : Nat} {run n} (hahead : AheadOf (belowAt cfg schedule k) (run, n))
    (s : State) : s.Evolves (stmtAt cfg schedule k run n s).2 := by
  intro I hI hinit hs
  have hb := belowAt_relates_self cfg schedule hI hinit (trivial_rewriting _) k
  exact (hb.stmt (fun r hr => hahead r hr ▸ hb.ahead _) s hs).1

/-! ## What is only added to -/

variable (P) in
/-- The same scopes and functions are open, and types were queued and findings added. That an operand
is missing is reported only if a node that `P` holds of lacks one. -/
structure State.Extends (s s' : State) : Prop where
  contexts : s'.table.contexts = s.table.contexts
  returns : s'.returns = s.returns
  declared : s.declared <+: s'.declared
  findings : ∃ fs : List Finding, (∀ f ∈ fs, f.cause.isMissing → Gap P) ∧
    s'.findings = s.findings ++ fs

namespace State.Extends

/-- Only the entries of the table were changed. -/
theorem of_table {t : Symbols} (h : t.contexts = s.table.contexts) :
    s.Extends P { s with table := t } :=
  ⟨h, rfl, List.prefix_rfl, [], List.forall_mem_nil _, by simp⟩

theorem refl (s : State) : s.Extends P s := of_table rfl

theorem trans {s₁ s₂ s₃ : State} (h : s₁.Extends P s₂) (h' : s₂.Extends P s₃) :
    s₁.Extends P s₃ := by
  obtain ⟨fs, hfs, he⟩ := h.findings
  obtain ⟨fs', hfs', he'⟩ := h'.findings
  exact ⟨h'.contexts.trans h.contexts, h'.returns.trans h.returns, h.declared.trans h'.declared,
    fs ++ fs', List.forall_mem_append.2 ⟨hfs, hfs'⟩, by rw [he', he, List.append_assoc]⟩

end State.Extends

theorem State.Notes.adds (h : s.Notes P s') : s.Extends P s' := by
  obtain ⟨fs, hfs, rfl⟩ := h
  exact ⟨rfl, rfl, List.prefix_rfl, fs, hfs, rfl⟩

/-- Declarations only add. -/
theorem State.extends_defining (s : State) (P : Node → Prop) : Defining (s.Extends P) where
  fault {s'} _ loc _ hc hs :=
    hs.trans (@Reports.fault _ (s'.notes_reports P) _ true loc _ hc (.refl s')).adds
  warning {s'} _ loc _ hc hs :=
    hs.trans (@Reports.warning _ (s'.notes_reports P) _ true loc _ hc (.refl s')).adds
  declare _ _ hs := hs.trans
    ⟨rfl, rfl, List.prefix_append _ _, [], List.forall_mem_nil _, (List.append_nil _).symm⟩
  insert _ hs := hs.trans (.of_table (Table.contexts_insert _ _))

theorem Quiet.of_ensures {m} {Q : α → Prop}
    (h : ∀ {I : State → Prop}, (Reports fun _ => I) → Ensures I m Q) : Quiet m :=
  fun P s => (h (s.notes_reports P) s (.refl s)).1

theorem redefined_quiet (name : Ident) (loc : Location) : Quiet (redefined name loc) :=
  .of_ensures fun hI => redefined_ensures hI name loc

theorem jump_quiet (h : Head) : Quiet (jump h) := .of_ensures fun hI => jump_ensures hI h

theorem checkAll_quiet (declared : List (Ty × Location)) : Quiet (checkAll declared) :=
  .of_ensures fun hI => checkAll_ensures hI declared

theorem formals_quiet : ∀ (params : List Param) (done : List Formal), Quiet (formals done params)
  | [], _ => .pure _
  | p :: rest, done => by
    unfold formals
    split
    · exact (Quiet.report _ _ rfl).bind fun _ => formals_quiet rest _
    · exact (checkType_quiet _ _).bind fun _ => formals_quiet rest _

/-! ## What statements do -/

/-- A task for the level below: a node that `P` holds of and, if it is a module that was analysed
ahead, the outcome of that. -/
def Task.Proper (below : Below) (P : Node → Prop) : Task → Prop
  | .expr n _ _ => P n
  | .stmt run n _ => P n ∧ AheadOf below (run, n)

theorem Task.Proper.node {t : Task} (h : t.Proper below P) : P t.node := by
  cases t with
  | expr n expected s => exact h
  | stmt run n s => exact h.1

variable (below P) in
/-- From one state to another through tasks. Between them something is reported or declared, a
variable is bound which has a value or a name that is free, a module is put into the table after a
run over its body that starts with nothing, or scopes, functions and bodies are opened and closed. -/
inductive Moves : State → List Task → State → Prop
  | notes {s s' : State} (notes : s.Notes P s') : Moves s [] s'
  | settle {s s' : State} {h : Head} (settles : Settles s h s') (evolves : s.Evolves s')
      (adds : s.Extends P s') : Moves s [] s'
  | bind {s : State} (name : Ident) (v : Variable) (loc : Location)
      (hv : s.table.lookup name = none ∨ v.initialized = true) :
    Moves s [] { s with table := s.table.insert (.binding name v loc) }
  | adopt {s r : State} {ts : List Task} (h : Head) (free : s.table.lookup h.name = none)
      (sound : r.table.Sound) (closed : r.table.stack = []) (run : Moves {} ts r) :
    Moves s [] (s.adopt h r)
  | task {t : Task} (proper : t.Proper below P) : Moves t.state [t] (t.after below)
  | scope {s s₁ : State} {ts : List Task} (context : Context)
      (inner : Moves { s with table := s.table.enter context } ts s₁) :
    Moves s ts { s₁ with table := s₁.table.exit }
  | returning {s s₁ : State} {ts : List Task} (result : Ty)
      (inner : Moves { s with returns := result :: s.returns } ts s₁) :
    Moves s ts { s₁ with returns := s₁.returns.tail }
  | body {s s₁ : State} {ts : List Task} (inner : Moves s ts s₁) :
    Moves s ts { s₁ with declared := s₁.declared.take s.declared.length }
  | append {s s₁ s' : State} {ts ts' : List Task} (first : Moves s ts s₁) (rest : Moves s₁ ts' s') :
    Moves s (ts ++ ts') s'

namespace Moves

/-- Nothing is left to the level below after some tasks. -/
theorem last (h : Moves below P s ts s₁) (h' : Moves below P s₁ [] s') : Moves below P s ts s' := by
  simpa using h.append h'

theorem proper (h : Moves below P s ts s') : ∀ t ∈ ts, t.Proper below P := by
  induction h with
  | task proper => exact List.forall_mem_singleton.2 proper
  | scope context inner ih => exact ih
  | returning result inner ih => exact ih
  | body inner ih => exact ih
  | append first rest ih ih' => exact List.forall_mem_append.2 ⟨ih, ih'⟩
  | _ => exact List.forall_mem_nil _

theorem evolves (hb : ∀ t : Task, t.Proper below P → t.state.Evolves (t.after below))
    (h : Moves below P s ts s') : s.Evolves s' ∧ ∀ t ∈ ts, s.Evolves t.state := by
  induction h with
  | notes notes => exact ⟨notes.evolves, List.forall_mem_nil _⟩
  | settle _ evolves _ => exact ⟨evolves, List.forall_mem_nil _⟩
  | bind name v loc hv => exact ⟨fun _ hI _ => hI.insert trivial, List.forall_mem_nil _⟩
  | adopt h free sound closed _ ih =>
    refine ⟨fun I hI hinit => ?_, List.forall_mem_nil _⟩
    exact hI.module h.name h.loc (ih.1 I hI hinit hinit)
  | task proper => exact ⟨hb _ proper, List.forall_mem_singleton.2 (.refl _)⟩
  | @scope s s₁ ts context inner ih =>
    have henter : s.Evolves { s with table := s.table.enter context } :=
      fun _ hI _ => hI.enter context
    exact ⟨(henter.trans ih.1).trans fun _ hI _ => hI.exit, fun t ht => henter.trans (ih.2 t ht)⟩
  | @returning s s₁ ts result inner ih =>
    have hopen : s.Evolves { s with returns := result :: s.returns } := fun _ hI _ => hI.frame _ _
    exact ⟨(hopen.trans ih.1).trans fun _ hI _ => hI.frame _ _, fun t ht => hopen.trans (ih.2 t ht)⟩
  | body inner ih => exact ⟨ih.1.trans fun _ hI _ => hI.frame _ _, ih.2⟩
  | append first rest ih ih' =>
    exact ⟨ih.1.trans ih'.1, List.forall_mem_append.2 ⟨ih.2, fun t ht => ih.1.trans (ih'.2 t ht)⟩⟩

/-- What is opened is closed, and what is added to is kept. -/
theorem adds (hb : ∀ t : Task, t.Proper below P → t.state.Extends P (t.after below))
    (h : Moves below P s ts s') : s.Extends P s' := by
  induction h with
  | notes notes => exact notes.adds
  | settle _ _ adds => exact adds
  | bind name v loc hv => exact .of_table (Table.contexts_insert _ _)
  | adopt h free sound closed run ih =>
    obtain ⟨fs, hfs, he⟩ := ih.findings
    refine ⟨Table.contexts_insert _ _, rfl, List.prefix_rfl, _, hfs, ?_⟩
    rw [State.adopt, he]
    rfl
  | task proper => exact hb _ proper
  | scope context inner ih =>
    exact ⟨Table.contexts_exit ih.contexts, ih.returns, ih.declared, ih.findings⟩
  | returning result inner ih =>
    exact ⟨ih.contexts, congrArg List.tail ih.returns, ih.declared, ih.findings⟩
  | body inner ih =>
    refine ⟨ih.contexts, ih.returns, ?_, ih.findings⟩
    exact List.prefix_take_iff.2 ⟨ih.declared, Nat.le_refl _⟩
  | append first rest ih ih' => exact ih.trans ih'

end Moves

theorem Through.moves (below : Below) (h : Through below.expr P s ts s') :
    Moves below P s ts s' := by
  induction h with
  | done notes => exact .notes notes
  | @task s s₁ s' n expected ts hn notes _ ih =>
    have htask : Moves below P s₁ [.expr n expected s₁] (below.expr n expected s₁).2 :=
      .task (t := .expr n expected s₁) hn
    exact (Moves.notes notes).append (htask.append ih)

variable (below P) in
/-- A step moves through its parts, from whatever state. -/
def Moving (m : Analysis α) (ps : Parts) : Prop := ∀ s, Moves below P s (ps s) (m s).2

namespace Moving

variable {m : Analysis α} {f : α → Analysis β} {ps : Parts} {next : α → Parts}

theorem of_quiet (hm : Quiet m) : Moving below P m .none := fun s => .notes (hm s)

theorem of_yields (hm : Yields below.expr P m ps) : Moving below P m ps := fun s =>
  (hm s).moves below

theorem pure (a : α) : Moving below P (Pure.pure a) .none := of_quiet (.pure a)

theorem bind (hm : Moving below P m ps) (hf : ∀ a, Moving below P (f a) (next a)) :
    Moving below P (m >>= f) (ps.andThen m next) := fun s => (hm s).append (hf _ _)

theorem last (hm : Moving below P m ps) (hf : ∀ a, Moving below P (f a) .none) :
    Moving below P (m >>= f) ps := fun s => (hm s).last (hf _ _)

end Moving

/-! ## Declarations -/

section Rules

variable {h : Head} {cs nodes : List Node} {n : Node}

theorem moves_settle {m} {Q : α → Prop} (hm : Settles s h (m s).2)
    (hI : ∀ {I : State → Prop}, Defining I → Ensures I m Q) : Moves below P s [] (m s).2 :=
  .settle hm (.of_ensures (fun _ hK => hI hK.defining) s) (hI (s.extends_defining P) s (.refl s)).1

/-- A step that declares something or reports its name. -/
theorem Moving.of_settles {m : Analysis Unit} (hm : ∀ s, Settles s h (m s).2)
    (hI : ∀ {I : State → Prop}, Defining I → Ensures I m fun _ => True) :
    Moving below P m .none := fun s => moves_settle (hm s) hI

/-- Reporting that a name is taken leaves the table alone. -/
theorem moves_taken (s : State) {f : Finding} (hf : f.cause.isMissing = false) :
    Moves below P s [] { s with findings := s.findings ++ [f] } :=
  .notes ⟨[f], List.forall_mem_singleton.2 (by simp [hf]), rfl⟩

theorem bindFormals_moving : ∀ params : List (Formal × Location),
    Moving below P (bindFormals params) .none
  | [] => .pure _
  | (p, loc) :: rest => fun _ =>
    (Moves.bind p.name ⟨p.type, p.mutable, .parameter, true⟩ loc (.inr rfl)).last
      (bindFormals_moving rest _)

theorem declareFunction_moves (hk : h.kind = .funcDef)
    (hfree : s.table.lookup h.name = none) (flags : Attributes) :
    Moves below P s [] (declareFunction h flags s).2 := by
  obtain ⟨s₁, ht, hr⟩ := declareFunction_registers hfree hk flags
  exact moves_settle (.added ht hr (.refl _)) fun hI => declareFunction_ensures hI h flags

theorem foreignFunction_moving (hk : h.kind = .funcDef) (b : Node) :
    Moving below P (function h .foreignFn b pure) .none := by
  intro s
  unfold function
  rw [bind_apply]
  rcases redefined_run h.name h.loc s with ⟨hfree, hrun⟩ | ⟨e, -, hrun⟩
  · have hdeclared : Moves below P s [] _ :=
      declareFunction_moves hk hfree (functionFlags h .foreignFn)
    cases hb : b.isAbsent with
    | true =>
      simp only [hrun, Bool.false_eq_true, if_false, if_true]
      exact hdeclared.last (Moving.pure _ _)
    | false =>
      simp only [hrun, functionFlags_foreign, Bool.false_eq_true, if_false, if_true]
      exact hdeclared.last (Moving.of_quiet (.report_pure _ _ _ rfl) _)
  · rw [hrun]
    exact moves_taken s rfl

theorem bindForeign_moving (h : Head) : Moving below P (bindForeign h) .none := by
  unfold bindForeign
  split
  · exact .of_quiet (.report _ _ rfl)
  · exact (Moving.of_quiet (checkType_quiet _ _)).last fun _ s =>
      .bind h.name ⟨h.type, h.mutable, .foreign, true⟩ h.loc (.inr rfl)

theorem foreignVariable_moving (h : Head) (cs : List Node) :
    Moving below P (foreignVariable h cs) .none := by
  refine (Moving.of_quiet (redefined_quiet _ _)).last fun taken => ?_
  cases taken with
  | true => exact .pure _
  | false =>
    simp only [Bool.false_eq_true, if_false]
    split
    · exact bindForeign_moving h
    · exact (Moving.of_quiet (.report _ _ rfl)).last fun _ => bindForeign_moving h

theorem externItems_moving (ns : List Node) : Moving below P (externItems ns) .none := by
  induction ns with
  | nil => exact .pure _
  | cons n rest hrest =>
    unfold externItems
    cases n with
    | absent => exact (Moving.of_quiet (.report _ _ rfl)).last fun _ => hrest
    | mk h cs fs b =>
      dsimp only
      split
      · rename_i hk
        exact (foreignFunction_moving hk b).last fun _ => hrest
      · exact (foreignVariable_moving h cs).last fun _ => hrest
      · exact (foreignVariable_moving h cs).last fun _ => hrest
      · exact (Moving.of_quiet (.report _ _ rfl)).last fun _ => hrest

/-- The first binding of a variable with a declared type finds its name free, and the second one is
that of a variable with a value. -/
theorem variableDecl_moving (h : Head) (storage : Storage) (hcs : ∀ c ∈ cs, P c) :
    Moving below P (variableDecl below.expr h storage cs) (variableParts h storage cs) := by
  intro s
  unfold variableDecl variableParts Parts.following Parts.andThen
  rw [bind_apply]
  rcases redefined_run h.name h.loc s with ⟨hfree, hrun⟩ | ⟨e, -, hrun⟩
  · simp only [hrun, Bool.false_eq_true, if_false]
    split
    · cases cs with
      | nil => exact Moving.of_quiet (.report_pure _ _ _ rfl) s
      | cons init rest =>
        refine Moving.last (.of_yields (below_yields (hcs init (.head _)) .unknown)) (fun r => ?_) s
        obtain ⟨init', _ | type⟩ := r
        · exact .pure _
        · exact fun s => .bind _ _ _ (.inr rfl)
    · have hchecked : s.Notes P _ := checkType_quiet h.loc h.type s
      have hbound : Moves below P _ [] _ := .bind h.name
        ⟨h.type, h.mutable && storage != .constant, storage, storage == .static⟩ h.loc
        (.inl (hchecked.table ▸ hfree))
      rw [bind_apply, bind_apply]
      refine (Moves.notes hchecked).append (hbound.append ?_)
      cases cs with
      | nil => exact Moving.pure _ _
      | cons init rest =>
        refine Moving.last (.of_yields (exprOf_yields (hcs init (.head _)) h.type)) (fun r => ?_) _
        exact fun s => .bind _ _ _ (.inr rfl)
  · rw [hrun]
    exact moves_taken s rfl

/-! ## Bodies -/

variable (hP : Hereditary P)

theorem statements_moving : ∀ {slots : List (Option ModuleRun × Node)}, (∀ slot ∈ slots, P slot.2) →
    (∀ slot ∈ slots, AheadOf below slot) →
    Moving below P (statements below slots) (statementsParts below slots)
  | [], _, _ => .pure _
  | (run, n) :: rest, hslots, hahead => by
    obtain ⟨hn, hrest⟩ := List.forall_mem_cons.1 hslots
    obtain ⟨hrun, haheads⟩ := List.forall_mem_cons.1 hahead
    have hstmt : Moving below P (below.stmt run n) (.stmt run n) := fun s =>
      .task (t := .stmt run n s) ⟨hn, hrun⟩
    exact hstmt.bind fun _ => (statements_moving hrest haheads).last fun _ => .pure _

theorem mem_of_lookAhead {slot} (h : slot ∈ lookAhead cfg below nodes) : slot.2 ∈ nodes := by
  have hmem := List.mem_map_of_mem (f := fun slot => slot.2) h
  rwa [map_lookAhead] at hmem

variable (cfg below) in
theorem body_moving (hn : ∀ n ∈ nodes, P n) :
    Moving below P (body cfg below nodes) (bodyParts cfg below nodes) := by
  have hslots : ∀ slot ∈ lookAhead cfg below nodes, P slot.2 :=
    fun _ hslot => hn _ (mem_of_lookAhead hslot)
  intro s
  have hstatements := statements_moving hslots (lookAhead_aheadOf cfg below nodes) s
  exact .body (hstatements.last (.notes (checkAll_quiet _ _)))

/-- A body in a scope of its own. -/
theorem scope_moves (hn : ∀ n ∈ nodes, P n) (context : Context) (s : State) :
    Moves below P s (bodyParts cfg below nodes { s with table := s.table.enter context })
      { (body cfg below nodes { s with table := s.table.enter context }).2 with
        table := (body cfg below nodes { s with table := s.table.enter context }).2.table.exit } :=
  .scope context (body_moving cfg below hn _)

include hP

theorem branch_moving (hn : P n) :
    Moving below P (branch cfg below n) (branchParts cfg below n) := by
  unfold branch branchParts
  split
  · exact (body_moving cfg below (hP.children hn)).last fun _ => .pure _
  · exact fun s => .task (t := .stmt none n s) ⟨hn, nofun⟩

theorem branches_moving : ∀ {ns : List Node}, (∀ n ∈ ns, P n) →
    Moving below P (branches cfg below ns) (branchesParts cfg below ns)
  | [], _ => .pure _
  | n :: rest, hns => by
    obtain ⟨hn, hrest⟩ := List.forall_mem_cons.1 hns
    exact (branch_moving hP hn).bind fun _ => (branches_moving hrest).last fun _ => .pure _

theorem conditional_moving (h : Head) (hcs : ∀ c ∈ cs, P c) (hgap : cs.length < 1 → Gap P) :
    Moving below P (conditional cfg below h cs) (conditionalParts cfg below cs) := by
  cases cs with
  | nil => exact (Moving.of_yields (missingOperand_yields (hgap Nat.one_pos) _ _ _)).last fun _ => .pure _
  | cons condition rest =>
    obtain ⟨hc, hrest⟩ := List.forall_mem_cons.1 hcs
    exact Moving.bind (.of_yields (exprOf_yields hc _)) fun _ =>
      (branches_moving hP hrest).last fun _ => .pure _

theorem loopNodes_of (hn : P n) : ∀ c ∈ loopNodes n, P c := by
  unfold loopNodes
  split
  · exact hP.children hn
  · exact List.forall_mem_singleton.2 hn

theorem loopBody_moving : ∀ {ns : List Node}, (∀ n ∈ ns, P n) →
    Moving below P (loopBody cfg below ns) (loopBodyParts cfg below ns)
  | [], _ => .pure _
  | [n], hns => by
    intro s
    rw [loopBody_state]
    exact scope_moves (loopNodes_of hP (hns n (.head _))) _ s
  | _ :: m :: rest, hns =>
    (loopBody_moving (List.forall_mem_cons.1 hns).2).last fun _ => .pure _

theorem loop_moving (h : Head) (hcs : ∀ c ∈ cs, P c) (hgap : cs.length < 1 → Gap P) :
    Moving below P (loop cfg below h cs) (loopParts cfg below h cs) := by
  cases cs with
  | nil => exact (Moving.of_yields (missingOperand_yields (hgap Nat.one_pos) _ _ _)).last fun _ => .pure _
  | cons first rest =>
    obtain ⟨hc, hrest⟩ := List.forall_mem_cons.1 hcs
    dsimp only [loop, loopParts]
    split
    · exact Moving.bind (.of_yields (exprOf_yields hc _)) fun _ =>
        (loopBody_moving hP hrest).last fun _ => .pure _
    · exact loopBody_moving hP hcs

omit hP in
theorem returnStmt_moving (h : Head) (hcs : ∀ c ∈ cs, P c) :
    Moving below P (returnStmt below.expr h cs) (returnParts cs) := by
  intro s
  have houtside : Moving below P (do report h.loc .outsideFunction; return cs) .none :=
    .of_quiet (.report_pure _ _ _ rfl)
  unfold returnStmt returnParts
  rw [bind_apply, get_apply, bind_apply, symbols_apply]
  rcases s.returns with _ | ⟨expected, _⟩
  · exact houtside s
  · cases s.table.context.inFunction with
    | false => exact houtside s
    | true =>
      cases cs with
      | nil => exact Moving.of_quiet ((accepts_quiet _ _ _).bind fun _ => .pure _) s
      | cons value rest =>
        exact Moving.last (.of_yields (exprOf_yields (hcs value (.head _)) expected))
          (fun _ => .pure _) s

omit hP in
/-- The body of a function is analysed in a scope with its parameters, once it is declared. -/
theorem function_moving (hk : h.kind = .funcDef) {b : Node} (hb : ∀ c ∈ b.children, P c) :
    Moving below P (function h .plain b (body cfg below)) (functionParts cfg below h b) := by
  intro s
  unfold function functionParts
  rw [bind_apply]
  rcases redefined_run h.name h.loc s with ⟨hfree, hrun⟩ | ⟨e, he, hrun⟩
  · have hdeclared : Moves below P s [] _ := declareFunction_moves hk hfree (functionFlags h .plain)
    cases habsent : b.isAbsent with
    | true =>
      simp only [hrun, Bool.false_eq_true, if_false, if_true, Bool.or_true]
      exact hdeclared.last (Moving.pure _ _)
    | false =>
      simp only [hrun, hfree, functionFlags_plain, Bool.false_eq_true, if_false, Option.isSome_none,
        Bool.or_self]
      have hbody := body_moving cfg below hb (functionStart h s)
      exact hdeclared.append (.scope (functionContext h)
        ((bindFormals_moving _ _).append (.returning h.type hbody)))
  · simp only [hrun, he, Option.isSome_some, Bool.true_or, if_true]
    exact moves_taken s rfl

omit hP in
theorem moduleDecl_moves (hcs : ∀ c ∈ cs, P c) {run}
    (hrun : ∀ r, run = some r → r = ModuleRun.ofBody cfg below cs)
    (hsound : (body cfg below cs {}).2.table.Sound)
    (hclosed : (body cfg below cs {}).2.table.stack = []) (s : State) :
    Moves below P s [] (moduleDecl cfg below h run cs s).2 := by
  rcases redefined_run h.name h.loc s with ⟨hfree, -⟩ | ⟨e, -, htaken⟩
  · rw [moduleDecl_adopts hrun hfree]
    exact .adopt h hfree hsound hclosed (body_moving cfg below hcs {})
  · rw [moduleDecl_taken htaken]
    exact moves_taken s rfl

/-- A statement other than an assignment moves through its parts. -/
theorem stmtStep_moves {run : Option ModuleRun} (hn : P n) (hassign : n.kind? ≠ some .assign)
    (hrun : ∀ r, run = some r → r = ModuleRun.ofBody cfg below n.children)
    (hmodule : (body cfg below n.children {}).2.table.Sound ∧
      (body cfg below n.children {}).2.table.stack = []) (s : State) :
    Moves below P s (stmtParts cfg below n s) (stmtStep cfg below run n s).2 := by
  cases n with
  | absent => exact Moving.of_yields (missing_yields ⟨_, hn, id⟩ _ _) s
  | mk h cs fs b =>
    have hcs := hP.operands hn
    have hgap : ∀ {kind : Kind}, h.kind = kind → cs.length < kind.arity → Gap P :=
      fun hk hlacks => ⟨_, hn, Nat.not_le.2 (hk ▸ hlacks)⟩
    have hvariable : ∀ storage, Moving below P
        (do return Node.mk h (← variableDecl below.expr h storage cs) fs b)
        (variableParts h storage cs) :=
      fun storage => (variableDecl_moving h storage hcs).last fun _ => .pure _
    have hrecord : h.kind = .structDef ∨ h.kind = .unionDef →
        Moving below P (do record h fs; return Node.mk h cs fs b) .none := fun hk =>
      (Moving.of_settles (fun s => record_settles fs hk) fun hI => record_ensures hI h fs).last
        fun _ => .pure _
    have hjump : Moving below P (do jump h; return Node.mk h cs fs b) .none :=
      (Moving.of_quiet (jump_quiet h)).last fun _ => .pure _
    have hblock : ∀ safety, Moving below P
        (do return Node.mk h (← blockBody cfg below safety cs) fs b)
        (blockParts cfg below safety cs) := fun safety s => scope_moves hcs _ s
    have hloop : (cs.length < 1 → Gap P) →
        Moving below P (do return Node.mk h (← loop cfg below h cs) fs b)
          (loopParts cfg below h cs) := fun hgap => (loop_moving hP h hcs hgap).last fun _ => .pure _
    dsimp only [stmtStep, stmtParts]
    cases hk : h.kind with
    | moduleDef => exact moduleDecl_moves hcs hrun hmodule.1 hmodule.2 s
    | structDef => exact hrecord (.inl hk) s
    | unionDef => exact hrecord (.inr hk) s
    | enumDef =>
      exact ((Moving.of_settles (fun s => enum_settles hk) fun hI => enum_ensures hI h).last
        fun _ => .pure _) s
    | variantDef =>
      exact ((Moving.of_settles (fun s => variant_settles hk) fun hI => variant_ensures hI h).last
        fun _ => .pure _) s
    | aliasDef =>
      exact ((Moving.of_settles (fun s => aliasDecl_settles hk) fun hI => aliasDecl_ensures hI h).last
        fun _ => .pure _) s
    | funcDef =>
      exact ((function_moving hk (hP.body hn)).last fun _ => .pure _) s
    | externBlock => exact ((externItems_moving cs).last fun _ => .pure _) s
    | varDef => exact hvariable _ s
    | staticDef => exact hvariable _ s
    | constDef => exact hvariable _ s
    | block => exact hblock _ s
    | unsafeBlock => exact hblock _ s
    | ifThen => exact ((conditional_moving hP h hcs (hgap hk)).last fun _ => .pure _) s
    | whileLoop => exact hloop (hgap hk) s
    | loop => exact hloop (hgap hk) s
    | breakLoop => exact hjump s
    | continueLoop => exact hjump s
    | returnValue => exact ((returnStmt_moving h hcs).last fun _ => .pure _) s
    | assign => exact absurd (congrArg some hk) hassign
    | program => exact Moving.of_quiet (.report_pure _ _ _ rfl) s
    | _ => exact ((Moving.of_yields (below_yields hn .unknown)).last fun _ => .pure _) s

end Rules

/-! ## Moments -/

/-- Is what is come to accepted, if it is an expression? -/
def Task.accepted (cfg : Config) (k : Nat) (t : Task) : Bool :=
  (exprAt cfg k t.node .unknown t.state).1.2.isSome

variable (cfg schedule) in
/-- An assignment is analysed alike as an expression and as a statement. -/
theorem Task.of_assign (k : Nat) {t : Task} (hk : t.node.kind? = some .assign) :
    t.parts cfg (belowAt cfg schedule k)
        = assignParts (exprAt cfg k) t.node.head t.node.children t.state ∧
      t.after (belowAt cfg schedule (k + 1))
        = (assign (exprAt cfg k) t.node.head t.node.children t.state).2 ∧
      t.accepted cfg (k + 1) = (assign (exprAt cfg k) t.node.head t.node.children t.state).1.2 := by
  have hexpr : ∀ {h : Head} {cs : List Node} {fs : List (Component Node)} {b : Node} (expected : Ty)
      (s : State), h.kind = .assign → exprAt cfg (k + 1) (.mk h cs fs b) expected s
        = ((.mk h (assign (exprAt cfg k) h cs s).1.1 fs b,
            unitIf (assign (exprAt cfg k) h cs s).1.2),
          (assign (exprAt cfg k) h cs s).2) := by
    intro h cs fs b expected s hkind
    change exprStep (exprAt cfg k) expected (.mk h cs fs b) s = _
    simp only [exprStep, hkind]
    rfl
  have hsome : ∀ ok, (unitIf ok).isSome = ok := by decide
  rcases t with ⟨_ | ⟨h, cs, fs, b⟩, expected, s⟩ | ⟨run, _ | ⟨h, cs, fs, b⟩, s⟩
  · cases hk
  · have hkind : h.kind = .assign := Option.some.inj hk
    refine ⟨?_, congrArg Prod.snd (hexpr expected s hkind), ?_⟩
    · simp only [Task.parts, exprParts, hkind]
      rfl
    · simp only [Task.accepted, Task.node, Task.state, hexpr .unknown s hkind, hsome]
      rfl
  · cases hk
  · have hkind : h.kind = .assign := Option.some.inj hk
    refine ⟨?_, ?_, ?_⟩
    · simp only [Task.parts, stmtParts, hkind]
      rfl
    · change (stmtStep cfg (belowAt cfg schedule k) run (.mk h cs fs b) s).2 = _
      simp only [stmtStep, hkind]
      rfl
    · simp only [Task.accepted, Task.node, Task.state, hexpr .unknown s hkind, hsome]
      rfl

/-- What a task comes to: an assignment goes through its parts, and an accepted one to a name marks
that last; anything else moves through its parts. -/
theorem Task.parts_cases (hP : Hereditary P) (k : Nat) {t : Task}
    (ht : t.Proper (belowAt cfg schedule (k + 1)) P) :
    (t.node.kind? = some .assign ∧ ∃ s₁,
      Through (exprAt cfg k) P t.state (t.parts cfg (belowAt cfg schedule k)) s₁ ∧
        t.after (belowAt cfg schedule (k + 1))
          = if t.accepted cfg (k + 1) then t.node.assigned?.elim s₁ s₁.marked else s₁) ∨
    t.node.kind? ≠ some .assign ∧ Moves (belowAt cfg schedule k) P t.state
      (t.parts cfg (belowAt cfg schedule k)) (t.after (belowAt cfg schedule (k + 1))) := by
  by_cases hk : t.node.kind? = some .assign
  · have hn := ht.node
    obtain ⟨hparts, hafter, haccepted⟩ := Task.of_assign cfg schedule k hk
    rw [hparts, hafter, haccepted]
    generalize t.node = n at hk hn
    cases n with
    | absent => cases hk
    | mk h cs fs b =>
      have hgap : cs.length < 2 → Gap P := fun hlacks =>
        ⟨_, hn, fun hsupplied => absurd (hsupplied.arity hk) (Nat.not_le.2 hlacks)⟩
      refine .inl ⟨hk, ?_⟩
      exact assign_through _ hP.inherited (Option.some.inj hk) (hP.operands hn) hgap fs b t.state
  · refine .inr ⟨hk, ?_⟩
    cases t with
    | expr n expected s =>
      exact Through.moves (belowAt cfg schedule k) (exprStep_yields hP.inherited expected ht hk s)
    | stmt run n s =>
      exact stmtStep_moves hP ht.1 hk ht.2 (finished_sound cfg schedule k n.children) s

theorem Task.after_evolves {k : Nat} {t : Task} (ht : t.Proper (belowAt cfg schedule k) P) :
    t.state.Evolves (t.after (belowAt cfg schedule k)) := by
  cases t with
  | expr n expected s => exact exprAt_evolves k n expected s
  | stmt run n s => exact stmtAt_evolves ht.2 s

theorem marked_contexts (s : State) (name : Ident) :
    (s.marked name).table.contexts = s.table.contexts :=
  (Table.Rel.contexts (Table.Rel.modify_right Entry.Touched.matching
    (State.Touches.refl s).table name .withValue)).symm

theorem refuse_extends (cfg : Config) (loc : Location) (s : State) :
    s.Extends P (refuse cfg loc s).2 := by
  unfold refuse
  rw [bind_apply, get_apply]
  cases s.depthReported with
  | true => exact .refl s
  | false =>
    exact ⟨rfl, rfl, List.prefix_rfl, [⟨loc, .tooDeep cfg.depthLimit⟩],
      List.forall_mem_singleton.2 (absurd · Bool.false_ne_true), rfl⟩

/-- Whatever a task opens it closes, and findings are only added. By induction on the levels left. -/
theorem Task.after_adds (hP : Hereditary P) : ∀ (k : Nat) {t : Task},
    t.Proper (belowAt cfg schedule k) P → t.state.Extends P (t.after (belowAt cfg schedule k))
  | 0, t, _ => by
    cases t with
    | expr n expected s => exact refuse_extends cfg n.loc s
    | stmt run n s => exact refuse_extends cfg n.loc s
  | k + 1, t, ht => by
    rcases t.parts_cases hP k ht with ⟨-, s₁, hthrough, hafter⟩ | ⟨-, hmoves⟩
    · have hadds := (Through.moves (belowAt cfg schedule k) hthrough).adds fun _ => after_adds hP k
      rw [hafter]
      split
      · cases t.node.assigned? with
        | none => exact hadds
        | some name => exact hadds.trans (.of_table (marked_contexts s₁ name))
      · exact hadds
    · exact hmoves.adds fun _ => after_adds hP k

/-- The parts of a task are tasks for the level below, and come up in later states. -/
theorem Task.parts_proper {k : Nat} {t : Task} (hP : Hereditary P)
    (ht : t.Proper (belowAt cfg schedule (k + 1)) P) :
    ∀ t' ∈ t.parts cfg (belowAt cfg schedule k),
      t'.Proper (belowAt cfg schedule k) P ∧ t.state.Evolves t'.state := by
  have hmoves : ∃ s', Moves (belowAt cfg schedule k) P t.state
      (t.parts cfg (belowAt cfg schedule k)) s' := by
    rcases t.parts_cases hP k ht with ⟨-, s₁, hthrough, -⟩ | ⟨-, hmoves⟩
    · exact ⟨s₁, Through.moves (belowAt cfg schedule k) hthrough⟩
    · exact ⟨_, hmoves⟩
  obtain ⟨s', hmoves⟩ := hmoves
  exact fun t' ht' => ⟨hmoves.proper t' ht', (hmoves.evolves fun _ => after_evolves).2 t' ht'⟩

theorem Task.moments_evolves (hP : Hereditary P) : ∀ (k : Nat) {t : Task},
    t.Proper (belowAt cfg schedule k) P →
    ∀ m ∈ t.moments cfg schedule k, t.state.Evolves m.task.state
  | 0, t, _ => List.forall_mem_singleton.2 (.refl t.state)
  | k + 1, t, ht => by
    refine List.forall_mem_cons.2 ⟨.refl t.state, fun m hm => ?_⟩
    obtain ⟨t', ht', hm⟩ := List.mem_flatMap.1 hm
    obtain ⟨hproper, hevolves⟩ := parts_proper hP ht t' ht'
    exact hevolves.trans (moments_evolves hP k hproper m hm)

/-- What statements keep holds in every state that is reached. -/
theorem Reached.kept {tree} {I : State → Prop} (hI : Kept I I) (hinit : I {})
    (hs : Reached cfg schedule tree s) : I s := by
  obtain ⟨l, ns, -, m, hm, rfl⟩ := hs
  obtain ⟨t, ht, hm⟩ := List.mem_flatMap.1 hm
  have hns : ∀ n ∈ ns, True := fun _ _ => trivial
  have hmoves := body_moving cfg (belowAt cfg schedule l) (P := fun _ => True) hns {}
  have hstart := (hmoves.evolves fun _ => Task.after_evolves).2 t ht
  have hmoment := Task.moments_evolves hereditary_true l (hmoves.proper t ht) m hm
  exact hstart.trans hmoment I hI hinit hinit

theorem Reached.lawful {tree} (hs : Reached cfg schedule tree s) : s.table.Lawful :=
  hs.kept (I := State.Lawful) lawful_kept lawful_init

/-! ## What is open -/

/-- The same scopes and the same functions are open. -/
structure State.SameOpen (s s' : State) : Prop where
  sound : s'.table.Sound
  contexts : s'.table.contexts = s.table.contexts
  returns : s'.returns = s.returns

namespace State.SameOpen

theorem refl (hs : s.table.Sound) : s.SameOpen s := ⟨hs, rfl, rfl⟩

theorem trans (h : s.SameOpen s₁) (h' : s₁.SameOpen s') : s.SameOpen s' :=
  ⟨h'.sound, h'.contexts.trans h.contexts, h'.returns.trans h.returns⟩

theorem of_touched (hs : s.table.Sound) (h : s.table.Touched s'.table)
    (hreturns : s'.returns = s.returns) : s.SameOpen s' :=
  ⟨hs.touched h, (Table.Rel.contexts h).symm, hreturns⟩

theorem insert (hs : s.table.Sound) (name : Ident) (v : Variable) (loc : Location) :
    s.SameOpen { s with table := s.table.insert (.binding name v loc) } :=
  ⟨hs.bind name v loc, Table.contexts_insert _ _, rfl⟩

end State.SameOpen

theorem sameOpen_stable (s : State) : Stable s.SameOpen where
  report _ hs := ⟨hs.sound, hs.contexts, hs.returns⟩
  refuse _ _ hs := ⟨hs.sound, hs.contexts, hs.returns⟩
  value {s'} name hs := by
    have htouched : s'.table.Touched (s'.table.modify name .withValue) :=
      Table.Rel.modify_right Entry.Touched.matching (State.Touches.refl s').table name .withValue
    exact hs.trans (.of_touched (s := s') hs.sound htouched rfl)

theorem State.Notes.sameOpen (h : s.Notes P s') (hs : s.table.Sound) : s.SameOpen s' := by
  obtain ⟨fs, -, rfl⟩ := h
  exact ⟨hs, rfl, rfl⟩

/-- A task closes what it opens. -/
theorem Task.after_sameOpen {k : Nat} {t : Task} (ht : t.Proper (belowAt cfg schedule k) P)
    (hs : t.state.table.Sound) : t.state.SameOpen (t.after (belowAt cfg schedule k)) := by
  have hproper : t.Proper (belowAt cfg schedule k) fun _ => True := by
    cases t with
    | expr n expected s => trivial
    | stmt run n s => exact ⟨trivial, ht.2⟩
  have hreturns := (after_adds hereditary_true k hproper).returns
  cases t with
  | expr n expected s => exact .of_touched hs (exprAt_touches cfg k n expected s).table hreturns
  | stmt run n s =>
    have hends := (belowAt_sound cfg schedule k).stmt trivial ht.2 ⟨hs, trivial⟩
    exact ⟨hends.fit.sound, hends.leads.contexts, hreturns⟩

/-- So do statements on the whole, and the tasks on the way come up in sound tables. -/
theorem Moves.sameOpen {k : Nat} (h : Moves (belowAt cfg schedule k) P s ts s')
    (hs : s.table.Sound) : s.SameOpen s' ∧ ∀ t ∈ ts, t.state.table.Sound := by
  induction h with
  | notes notes => exact ⟨notes.sameOpen hs, List.forall_mem_nil _⟩
  | settle settles _ adds =>
    obtain ⟨hsound, hleads⟩ := settles.leads hs
    exact ⟨⟨hsound, hleads.contexts, adds.returns⟩, List.forall_mem_nil _⟩
  | bind name v loc _ => exact ⟨.insert hs name v loc, List.forall_mem_nil _⟩
  | adopt h free sound closed _ _ =>
    refine ⟨⟨hs.insert (fun _ => free) ⟨rfl, rfl⟩ fun body hbody => ?_,
      Table.contexts_insert _ _, rfl⟩, List.forall_mem_nil _⟩
    cases hbody
    exact ⟨closed, sound⟩
  | task proper => exact ⟨Task.after_sameOpen proper hs, List.forall_mem_singleton.2 hs⟩
  | scope context inner ih =>
    obtain ⟨hinner, htasks⟩ := ih (hs.enter context)
    exact ⟨⟨hinner.sound.exit, Table.contexts_exit hinner.contexts, hinner.returns⟩, htasks⟩
  | returning result inner ih =>
    obtain ⟨hinner, htasks⟩ := ih hs
    exact ⟨⟨hinner.sound, hinner.contexts, congrArg List.tail hinner.returns⟩, htasks⟩
  | body inner ih =>
    obtain ⟨hinner, htasks⟩ := ih hs
    exact ⟨⟨hinner.sound, hinner.contexts, hinner.returns⟩, htasks⟩
  | append first rest ih ih' =>
    obtain ⟨hfirst, htasks⟩ := ih hs
    obtain ⟨hrest, htasks'⟩ := ih' hfirst.sound
    exact ⟨hfirst.trans hrest, List.forall_mem_append.2 ⟨htasks, htasks'⟩⟩

end TreeSema.Analysis
