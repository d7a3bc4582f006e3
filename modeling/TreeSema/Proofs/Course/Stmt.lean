import TreeSema.Proofs.Course.Decl

/-!
# The course of an analysis

Every state that an analysis passes through has a sound table, and what is defined or reported once
stays so. `Carried` lists what else has to be checked of a property of states and of a relation
between nodes and what is made of them for both to be carried along: that they are kept by the
changes which statements make, each with what is known when it is made. A relation may refer to the
state, since what it says of earlier states holds of later ones.

* `Ends`: how a step ends that starts in a state with the property.
* `stmtStep_ends`: a statement ends so, if the nodes below it do.
* `belowAt_carries`, `program_ends`: so statements end at every level, and so does a program.
-/
namespace TreeSema.Analysis

variable {α β : Type} {cfg : Config} {schedule : Schedule} {W : Node → Prop} {I : State → Prop}
  {R : State → Node → Node → Prop} {s s' : State}

/-! ## How a step ends -/

/-- A state with a sound table and a property. -/
structure Fit (I : State → Prop) (s : State) : Prop where
  sound : s.table.Sound
  inv : I s

/-- A step that starts in `s` ends in a later state with the property and the same scopes open. -/
structure Ends (I : State → Prop) (s : State) (m : Analysis α) (P : State → α → Prop) : Prop where
  fit : Fit I (m s).2
  leads : s.Leads (m s).2
  post : P (m s).2 (m s).1

namespace Ends

variable {P : State → α → Prop} {Q : State → β → Prop} {m : Analysis α} {f : α → Analysis β}

theorem pure {a : α} (hs : Fit I s) (h : P s a) : Ends I s (Pure.pure a : Analysis α) P :=
  ⟨hs, .refl s, h⟩

theorem of_run {a : α} (hm : m s = (a, s')) (hfit : Fit I s') (hleads : s.Leads s')
    (hP : P s' a) : Ends I s m P := by
  constructor <;> rwa [hm]

theorem bind (hm : Ends I s m P)
    (hf : ∀ a s₁, Fit I s₁ → s.Leads s₁ → P s₁ a → Ends I s₁ (f a) Q) :
    Ends I s (m >>= f) Q :=
  have h := hf _ _ hm.fit hm.leads hm.post
  ⟨h.fit, hm.leads.trans h.leads, h.post⟩

theorem get (hs : Fit I s) : Ends I s (MonadState.get : Analysis State) fun _ _ => True :=
  ⟨hs, .refl s, trivial⟩

theorem symbols (hs : Fit I s) : Ends I s Analysis.symbols fun _ _ => True :=
  ⟨hs, .refl s, trivial⟩

theorem mono {P' : State → α → Prop} (h : Ends I s m P) (hP : ∀ s' a, P s' a → P' s' a) :
    Ends I s m P' :=
  ⟨h.fit, h.leads, hP _ _ h.post⟩

/-- What is known of the last state otherwise. -/
theorem keeping {K : State → Prop} (h : Ends I s m P) (hK : K (m s).2) :
    Ends I s m fun s' a => P s' a ∧ K s' :=
  ⟨h.fit, h.leads, h.post, hK⟩

end Ends

/-- The name is bound by no definition of the innermost scope. -/
def State.Open (s : State) (name : Ident) : Prop := ∀ d ∈ s.table.current.persistent, d.name ≠ name

theorem State.Open.touches {name} (hopen : s.Open name) (h : s.Touches s') : s'.Open name := by
  intro d' hd'
  obtain ⟨d, hd, htouched⟩ := exists_of_forall₂_right (Table.Rel.current h.table).persistent hd'
  rw [← Entry.Touched.matching.name htouched]
  exact hopen d hd

/-- A module whose run ended in `r` is put into the table, with the findings in it. -/
def State.adopt (s : State) (h : Head) (r : State) : State :=
  { s with
    findings := s.findings ++ r.findings
    table := s.table.insert (.definition h.name (.moduleDef (some (.table r.table))) h.loc) }

/-- A property of states and a relation between nodes and what is made of them are carried along by
analysis, for nodes of which `W` holds. -/
structure Carried (cfg : Config) (W : Node → Prop) (I : State → Prop)
    (R : State → Node → Node → Prop) : Prop where
  init : I {}
  touch : ∀ {s s' : State}, Fit I s → s.Touches s' → I s'
  enter : ∀ {s : State} (context : Context), Fit I s → I { s with table := s.table.enter context }
  exit : ∀ {s : State}, Fit I s → I { s with table := s.table.exit }
  bound : ∀ {s : State} (name : Ident) (v : Variable) (loc : Location), Fit I s → s.Open name →
    I { s with table := s.table.insert (.binding name v loc) }
  declare : ∀ {s s' : State} {h : Head} {cs fs b},
    W (.mk h cs fs b) → Fit I s → Registers s h s' → I s'
  module : ∀ {s r : State} {h : Head} {cs fs b},
    W (.mk h cs fs b) → Fit I s → s.table.lookup h.name = none → Fit I r → r.table.stack = [] →
    I (s.adopt h r)
  operands : ∀ {h : Head} {cs fs b}, W (.mk h cs fs b) → ∀ c ∈ cs, W c
  bodies : ∀ {h : Head} {cs fs b}, W (.mk h cs fs b) → ∀ c ∈ b.children, W c
  later : ∀ {s s' : State} {n n' : Node}, s.Later s' → R s n n' → R s' n n'
  same : ∀ {s : State} {n : Node}, W n → R s n n
  expr : ∀ (k : Nat) {n : Node} (expected : Ty) {s : State}, W n → Fit I s →
    R (exprAt cfg k n expected s).2 n (exprAt cfg k n expected s).1.1
  keep : ∀ {s : State} {h : Head} {cs cs' fs b},
    W (.mk h cs fs b) → h.kind ≠ .moduleDef → List.Forall₂ (R s) cs cs' →
    R s (.mk h cs fs b) (.mk h cs' fs b)
  function : ∀ {s : State} {h : Head} {cs cs' fs b},
    W (.mk h cs fs b) → h.kind = .funcDef → List.Forall₂ (R s) b.children cs' →
    R s (.mk h cs fs b) (.mk h cs fs (b.withChildren cs'))
  accepted : ∀ {s r : State} {h : Head} {cs cs' fs b},
    W (.mk h cs fs b) → h.kind = .moduleDef → Fit I s → s.table.lookup h.name = none → Fit I r →
    r.table.stack = [] → List.Forall₂ (R r) cs cs' →
    R (s.adopt h r) (.mk h cs fs b) (.mk h cs' fs b)
  rejected : ∀ {s r : State} {h : Head} {cs cs' fs b},
    W (.mk h cs fs b) → h.kind = .moduleDef → ⟨h.loc, .redefined h.name⟩ ∈ s.findings → Fit I r →
    List.Forall₂ (R r) cs cs' → R s (.mk h cs fs b) (.mk h cs' fs b)

namespace Carried

variable (hC : Carried cfg W I R)

include hC

theorem same_all {cs} (hcs : ∀ c ∈ cs, W c) : List.Forall₂ (R s) cs cs :=
  List.forall₂_same.2 fun c hc => hC.same (hcs c hc)

theorem later_all {cs cs'} (hs : s.Later s') (h : List.Forall₂ (R s) cs cs') :
    List.Forall₂ (R s') cs cs' := h.imp fun _ _ => hC.later hs

theorem children {n : Node} (hn : W n) : ∀ c ∈ n.children, W c := by
  cases n with
  | absent => exact fun _ hc => absurd hc List.not_mem_nil
  | mk h cs fs b => exact hC.operands hn

theorem fit_init : Fit I {} := ⟨.empty, hC.init⟩

/-! ## Elementary steps -/

theorem fit_touches (hs : Fit I s) (h : s.Touches s') : Fit I s' :=
  ⟨hs.sound.touched h.table, hC.touch hs h⟩

theorem touches {m} {P : State → α → Prop} (hs : Fit I s) (h : s.Touches (m s).2)
    (hP : P (m s).2 (m s).1) : Ends I s m P :=
  ⟨hC.fit_touches hs h, h.leads hs.sound, hP⟩

/-- A step that declares nothing and whose result does not matter. -/
theorem ensures {m} (hs : Fit I s) {Q : α → Prop} (hm : ∀ s : State, Ensures s.Touches m Q) :
    Ends I s m fun _ => Q :=
  hC.touches hs (touches_of_ensures hm s) (hm s s (.refl s)).2

theorem report (hs : Fit I s) (loc : Location) (cause : Cause) :
    Ends I s (Analysis.report loc cause) fun s' _ => ⟨loc, cause⟩ ∈ s'.findings :=
  hC.touches hs (State.touches_report s _) (by simp [report_apply])

theorem report_pure (hs : Fit I s) (loc : Location) (cause : Cause) {P : State → α → Prop} {a : α}
    (h : ∀ s', s.Later s' → P s' a) :
    Ends I s (Analysis.report loc cause >>= fun _ => Pure.pure a : Analysis α) P :=
  (hC.report hs loc cause).bind fun _ _ hs₁ hl _ => .pure hs₁ (h _ hl.toLater)

/-- A variable is bound where no definition of the innermost scope has its name. -/
theorem bind (hs : Fit I s) {name} (hopen : s.Open name) (v : Variable) (loc : Location) :
    Ends I s (insert (.binding name v loc)) fun s' _ =>
      ∀ d, d ∈ s'.table.current.persistent → d ∈ s.table.current.persistent := by
  refine ⟨⟨hs.sound.bind name v loc, hC.bound name v loc hs hopen⟩, State.leads_insert hopen, ?_⟩
  intro d hd
  have hcurrent : (s.table.insert (.binding name v loc)).current
      = s.table.current.put (.binding name v loc) := by
    rcases s.table with ⟨root, _ | ⟨top, rest⟩⟩ <;> rfl
  rw [show (insert (.binding name v loc) s).2.table = s.table.insert (.binding name v loc) from rfl,
    hcurrent] at hd
  rcases Scope.mem_persistent_put.1 hd with ⟨hd, -⟩ | ⟨hstatic, -⟩
  · exact hd
  · cases hstatic

/-- What a declaration adds is kept apart from what was there. -/
theorem settles {h cs fs b} (hw : W (.mk h cs fs b)) (hs : Fit I s) {m} {P : State → α → Prop}
    (hr : Settles s h (m s).2) (hP : P (m s).2 (m s).1) : Ends I s m P := by
  have hleads := (hr.leads hs.sound).2
  cases hr with
  | taken _ htouches _ => exact hC.touches hs htouches hP
  | added hbefore hregisters hafter =>
    have h₁ := hC.fit_touches hs hbefore
    have h₂ : Fit I _ := ⟨hregisters.sound h₁.sound, hC.declare hw h₁ hregisters⟩
    exact ⟨hC.fit_touches h₂ hafter, hleads, hP⟩

/-- What a step inside a scope ends with is there after the scope is closed. -/
theorem inScope {m} {P : State → α → Prop} (hs : Fit I s) (context : Context)
    (hm : ∀ s₁, Fit I s₁ → s₁.table.current.persistent = [] → Ends I s₁ m P)
    (hP : ∀ s₁ s₂ a, s₁.Later s₂ → P s₁ a → P s₂ a) : Ends I s (inScope context m) P := by
  have hstart : Fit I { s with table := s.table.enter context } :=
    ⟨hs.sound.enter context, hC.enter context hs⟩
  have hend := hm _ hstart rfl
  have hclose := State.later_exit hend.fit.sound
  refine ⟨⟨hend.fit.sound.exit, hC.exit hend.fit⟩, ⟨?_, ?_⟩, hP _ _ _ hclose hend.post⟩
  · exact ((State.later_enter s context).trans hend.leads.toLater).trans hclose
  · exact Table.contexts_exit hend.leads.contexts

theorem returning {m} {P : State → α → Prop} (hs : Fit I s) (result : Ty)
    (hm : ∀ s₁, Fit I s₁ → Ends I s₁ m P) (hP : ∀ s₁ s₂ a, s₁.Later s₂ → P s₁ a → P s₂ a) :
    Ends I s (returning result m) P := by
  have htouch : ∀ (s : State) (returns : List Ty), s.Touches { s with returns } :=
    fun s returns => ⟨.refl _, List.prefix_rfl⟩
  have h₁ := hC.fit_touches hs (htouch s (result :: s.returns))
  have h₂ := hm _ h₁
  have hlast := htouch (m { s with returns := result :: s.returns }).2
    (m { s with returns := result :: s.returns }).2.returns.tail
  have hleads := hlast.leads h₂.fit.sound
  exact ⟨hC.fit_touches h₂.fit hlast, (((htouch s _).leads hs.sound).trans h₂.leads).trans hleads,
    hP _ _ _ hleads.toLater h₂.post⟩

end Carried

/-! ## Expressions and variables -/

/-- What is known of the analysis of the nodes below. -/
structure Below.Carries (W : Node → Prop) (I : State → Prop) (R : State → Node → Node → Prop)
    (below : Below) : Prop where
  touches : ∀ s : State, ExprRule.Relates s.Touches (fun _ _ => True) below.expr
  expr : ∀ {n : Node} (expected : Ty) {s : State}, W n → Fit I s →
    Ends I s (below.expr n expected) fun s' r => R s' n r.1
  assign : ∀ {h : Head} {cs fs b} {s : State}, h.kind = .assign → W (.mk h cs fs b) → Fit I s →
    Ends I s (assign below.expr h cs) fun s' r => R s' (.mk h cs fs b) (.mk h r.1 fs b)
  stmt : ∀ {run : Option ModuleRun} {n : Node} {s : State}, W n → AheadOf below (run, n) →
    Fit I s → Ends I s (below.stmt run n) fun s' n' => R s' n n'

section Rules

variable (hC : Carried cfg W I R) {below : Below} (hb : below.Carries W I R)

include hC hb

variable {n b : Node} {cs : List Node} {analyse : List Node → Analysis (List Node)} {h : Head}
  {run : Option ModuleRun}

theorem exprOf_ends (type : Ty) (hn : W n) (hs : Fit I s) :
    Ends I s (exprOf below.expr type n) fun s' r => R s' n r.1 := by
  refine (hb.expr type hn hs).bind fun r s₁ hs₁ _ hr => ?_
  obtain ⟨n', actual⟩ := r
  cases actual with
  | none => exact .pure hs₁ hr
  | some actual =>
    exact (hC.ensures hs₁ fun s => accepts_ensures (touches_stable s) _ _ _).bind
      fun _ _ hs₂ hl₂ _ => .pure hs₂ (hC.later hl₂.toLater hr)

omit hb in
theorem bindFormals_ends : ∀ (params : List (Formal × Location)) {s : State}, Fit I s →
    s.table.current.persistent = [] → Ends I s (bindFormals params) fun _ _ => True
  | [], _, hs, _ => .pure hs trivial
  | (p, loc) :: rest, s, hs, hempty => by
    have hopen : s.Open p.name := by
      intro d hd
      rw [hempty] at hd
      cases hd
    refine (hC.bind hs hopen _ loc).bind fun _ s₁ hs₁ _ hsub => bindFormals_ends rest hs₁ ?_
    refine List.eq_nil_iff_forall_not_mem.2 fun d hd => ?_
    have := hsub d hd
    rw [hempty] at this
    cases this

omit hb in
theorem bindForeign_ends (h : Head) (hs : Fit I s) (hfree : s.table.lookup h.name = none) :
    Ends I s (bindForeign h) fun _ _ => True := by
  unfold bindForeign
  split
  · exact (hC.report hs _ _).mono fun _ _ _ => trivial
  · have htouches := touches_of_ensures
      (fun s => checkType_ensures (touches_stable s) h.loc h.type) s
    have hchecked := hC.touches (P := fun s' _ => s.Touches s') hs htouches htouches
    exact hchecked.bind fun _ s₁ hs₁ _ ht =>
      (hC.bind hs₁ (State.Open.touches (Table.open_of_lookup hfree) ht) _ _).mono
        fun _ _ _ => trivial

omit hb in
/-- A name is free, or it is reported. -/
theorem redefined_ends (hs : Fit I s) (name : Ident) (loc : Location) :
    Ends I s (redefined name loc) fun s' taken =>
      (taken = true → ⟨loc, .redefined name⟩ ∈ s'.findings) ∧
        (¬ taken = true → s'.table.lookup name = none) := by
  rcases redefined_run name loc s with ⟨hnone, hrun⟩ | ⟨e, -, hrun⟩
  · exact .of_run hrun hs (.refl s) ⟨nofun, fun _ => hnone⟩
  · exact .of_run hrun (hC.fit_touches hs (State.touches_report s _)) (State.leads_report s _)
      ⟨fun _ => by simp, fun h => absurd rfl h⟩

omit hb in
theorem foreignVariable_ends (h : Head) (cs : List Node) (hs : Fit I s) :
    Ends I s (foreignVariable h cs) fun _ _ => True := by
  refine (redefined_ends hC hs _ _).bind fun taken s₁ hs₁ _ htaken => ?_
  split
  · exact .pure hs₁ trivial
  · rename_i hnot
    have hfree := htaken.2 hnot
    dsimp only
    split
    · exact bindForeign_ends hC h hs₁ hfree
    · have htouches := State.touches_report s₁ ⟨h.loc, .externInit h.name⟩
      have hreported := hC.touches (m := report h.loc (.externInit h.name))
        (P := fun s' _ => s₁.Touches s') hs₁ htouches htouches
      exact hreported.bind fun _ s₂ hs₂ _ ht => bindForeign_ends hC h hs₂ (ht.free hfree)

/-- A variable that is there already may be bound once more. -/
theorem variableDecl_ends (h : Head) (storage : Storage) (hcs : ∀ c ∈ cs, W c) (hs : Fit I s) :
    Ends I s (variableDecl below.expr h storage cs) fun s' cs' => List.Forall₂ (R s') cs cs' := by
  refine (redefined_ends hC hs _ _).bind fun taken s₁ hs₁ _ htaken => ?_
  split
  · exact .pure hs₁ (hC.same_all hcs)
  · rename_i hnot
    have hopen : s₁.Open h.name := Table.open_of_lookup (htaken.2 hnot)
    dsimp only
    split
    · split
      · exact hC.report_pure hs₁ _ _ fun _ _ => .nil
      · rename_i init rest
        obtain ⟨hinit, hrest⟩ := List.forall_mem_cons.1 hcs
        have hexpr := (hb.expr .unknown hinit hs₁).keeping
          (touches_of_ensures (fun s => hb.touches s init .unknown) s₁)
        refine hexpr.bind fun r s₂ hs₂ _ hr => ?_
        obtain ⟨init', type⟩ := r
        obtain ⟨hinit', htouches⟩ := hr
        have hcs' : ∀ s', s₂.Later s' → List.Forall₂ (R s') (init :: rest) (init' :: rest) :=
          fun s' hl => .cons (hC.later hl hinit') (hC.same_all hrest)
        cases type with
        | none => exact .pure hs₂ (hcs' s₂ (.refl s₂))
        | some type =>
          exact (hC.bind hs₂ (hopen.touches htouches) _ _).bind fun _ s₃ hs₃ hl₃ _ =>
            .pure hs₃ (hcs' s₃ hl₃.toLater)
    · have hchecked := (hC.ensures hs₁ fun s =>
        checkType_ensures (touches_stable s) h.loc h.type).keeping (touches_of_ensures
          (fun s => checkType_ensures (touches_stable s) h.loc h.type) s₁)
      refine hchecked.bind fun _ s₂ hs₂ _ hr => ?_
      have hopen₂ := hopen.touches hr.2
      refine (hC.bind hs₂ hopen₂ _ _).bind fun _ s₃ hs₃ _ hsub => ?_
      have hopen₃ : s₃.Open h.name := fun d hd => hopen₂ d (hsub d hd)
      split
      · exact .pure hs₃ .nil
      · rename_i init rest
        obtain ⟨hinit, hrest⟩ := List.forall_mem_cons.1 hcs
        have hexpr := (exprOf_ends hC hb h.type hinit hs₃).keeping
          (touches_of_ensures (fun s => exprOf_relates (touches_stable s) (trivial_rewriting _) (hb.touches s) h.type init)
            s₃)
        refine hexpr.bind fun r s₄ hs₄ _ hr => ?_
        exact (hC.bind hs₄ (hopen₃.touches hr.2) _ _).bind fun _ s₅ hs₅ hl₅ _ =>
          .pure hs₅ (.cons (hC.later hl₅.toLater hr.1) (hC.same_all hrest))

/-! ## Functions -/

omit hC hb in
theorem withChildren_children (n : Node) : n.withChildren n.children = n := by
  cases n <;> rfl

omit hb in
theorem functionBody_ends (h : Head) (params : List Formal) (b : Node)
    (ha : ∀ s₁, Fit I s₁ → Ends I s₁ (analyse b.children) fun s' cs' =>
      List.Forall₂ (R s') b.children cs') (hs : Fit I s) :
    Ends I s (functionBody h params b analyse) fun s' b' =>
      ∃ cs', b' = b.withChildren cs' ∧ List.Forall₂ (R s') b.children cs' := by
  refine hC.inScope hs _ (fun s₁ hs₁ hempty => ?_) fun s₁ s₂ b' hl ⟨cs', hb', hcs'⟩ =>
    ⟨cs', hb', hC.later_all hl hcs'⟩
  refine (bindFormals_ends hC _ hs₁ hempty).bind fun _ s₂ hs₂ _ _ => ?_
  refine Ends.bind (P := fun s' cs' => List.Forall₂ (R s') b.children cs')
    (hC.returning hs₂ h.type ha fun _ _ _ hl => hC.later_all hl) fun cs' s₃ hs₃ _ hcs' => ?_
  exact .pure hs₃ ⟨cs', rfl, hcs'⟩

omit hb in
/-- What is done with a function that has been declared. -/
theorem functionRest_ends (h : Head) (flags : Attributes) (params : List Formal)
    (hb : ∀ c ∈ b.children, W c) (ha : ∀ s₁, Fit I s₁ → Ends I s₁ (analyse b.children) fun s' cs' =>
      List.Forall₂ (R s') b.children cs') (hs : Fit I s) :
    Ends I s (if b.isAbsent then pure b
      else if flags.has .foreignFn then (do report h.loc (.externBody h.name); return b)
      else functionBody h params b analyse) fun s' b' =>
      ∃ cs', b' = b.withChildren cs' ∧ List.Forall₂ (R s') b.children cs' := by
  have hsame : ∀ s', ∃ cs', b = b.withChildren cs' ∧ List.Forall₂ (R s') b.children cs' :=
    fun s' => ⟨b.children, (withChildren_children b).symm, hC.same_all hb⟩
  split
  · exact .pure hs (hsame s)
  · split
    · exact hC.report_pure hs _ _ fun s' _ => hsame s'
    · exact functionBody_ends hC h params b ha hs

omit hb in
/-- A function is there before its body is analysed. -/
theorem function_ends (hk : h.kind = .funcDef) (flags : Attributes) {fs} (hw : W (.mk h cs fs b))
    (ha : ∀ s₁, Fit I s₁ →
      Ends I s₁ (analyse b.children) fun s' cs' => List.Forall₂ (R s') b.children cs')
    (hs : Fit I s) :
    Ends I s (function h flags b analyse) fun s' b' =>
      ∃ cs', b' = b.withChildren cs' ∧ List.Forall₂ (R s') b.children cs' := by
  have hbw := hC.bodies hw
  refine (redefined_ends hC hs _ _).bind fun taken s₁ hs₁ _ htaken => ?_
  split
  · exact .pure hs₁ ⟨b.children, (withChildren_children b).symm, hC.same_all hbw⟩
  · rename_i hnot
    obtain ⟨s₂, ht₂, hr₂⟩ := declareFunction_registers (htaken.2 hnot) hk (functionFlags h flags)
    have hdeclared : Ends I s₁ (declareFunction h (functionFlags h flags)) fun _ _ => True :=
      hC.settles hw hs₁ (.added ht₂ hr₂ (.refl _)) trivial
    exact hdeclared.bind fun params s₃ hs₃ _ _ => functionRest_ends hC h _ params hbw ha hs₃

omit hb in
theorem externItems_ends : ∀ {ns : List Node} {s : State}, (∀ n ∈ ns, W n) → Fit I s →
    Ends I s (externItems ns) fun _ _ => True
  | [], _, _, hs => .pure hs trivial
  | n :: rest, s, hw, hs => by
    obtain ⟨hn, hrest⟩ := List.forall_mem_cons.1 hw
    unfold externItems
    split
    · exact (hC.report hs _ _).bind fun _ _ hs₁ _ _ => externItems_ends hrest hs₁
    · rename_i h cs fs b
      split
      · rename_i hk
        refine Ends.bind (function_ends hC hk _ hn (fun s₁ hs₁ => ?_) hs)
          fun _ _ hs₁ _ _ => externItems_ends hrest hs₁
        exact .pure hs₁ (hC.same_all (hC.bodies hn))
      · exact (foreignVariable_ends hC h cs hs).bind fun _ _ hs₁ _ _ => externItems_ends hrest hs₁
      · exact (foreignVariable_ends hC h cs hs).bind fun _ _ hs₁ _ _ => externItems_ends hrest hs₁
      · exact (hC.report hs _ _).bind fun _ _ hs₁ _ _ => externItems_ends hrest hs₁

/-! ## Bodies and modules -/

theorem statements_ends : ∀ {slots : List (Option ModuleRun × Node)} {s : State},
    (∀ slot ∈ slots, W slot.2) → (∀ slot ∈ slots, AheadOf below slot) → Fit I s →
    Ends I s (statements below slots) fun s' ns => List.Forall₂ (R s') (slots.map (·.2)) ns
  | [], _, _, _, hs => .pure hs .nil
  | (run, n) :: rest, s, hw, hahead, hs => by
    obtain ⟨hn, hrest⟩ := List.forall_mem_cons.1 hw
    obtain ⟨hrun, haheads⟩ := List.forall_mem_cons.1 hahead
    exact (hb.stmt hn hrun hs).bind fun n' s₁ hs₁ _ hn' =>
      (statements_ends hrest haheads hs₁).bind fun rest' s₂ hs₂ hl₂ hrest' =>
        .pure hs₂ (.cons (hC.later hl₂.toLater hn') hrest')

theorem body_ends {nodes} (hw : ∀ n ∈ nodes, W n) (hs : Fit I s) :
    Ends I s (body cfg below nodes) fun s' ns => List.Forall₂ (R s') nodes ns := by
  have hslots : ∀ slot ∈ lookAhead cfg below nodes, W slot.2 := by
    intro slot hslot
    have hmem := List.mem_map_of_mem (f := fun slot => slot.2) hslot
    rw [map_lookAhead] at hmem
    exact hw _ hmem
  refine (Ends.get hs).bind fun s₀ s₁ hs₁ _ _ => ?_
  refine (statements_ends hC hb hslots (lookAhead_aheadOf cfg below nodes) hs₁).bind
    fun ns s₂ hs₂ _ hns => ?_
  rw [map_lookAhead] at hns
  exact (hC.ensures hs₂ fun s => settleDeclared_ensures (touches_framed s) _).bind
    fun _ s₃ hs₃ hl₃ _ => .pure hs₃ (hC.later_all hl₃.toLater hns)

omit hC hb in
/-- A module whose name is free is put into the table with the one that its body ended with. -/
theorem moduleDecl_adopts (hrun : ∀ r, run = some r → r = ModuleRun.ofBody cfg below cs)
    (hfree : s.table.lookup h.name = none) : moduleDecl cfg below h run cs s
      = ((body cfg below cs {}).1, s.adopt h (body cfg below cs {}).2) := by
  have hgetD : run.getD (ModuleRun.ofBody cfg below cs) = ModuleRun.ofBody cfg below cs := by
    cases run with
    | none => rfl
    | some r => exact hrun r rfl
  rw [moduleDecl_free (redefined_free hfree), hgetD, ofBody_eq]
  rfl

/-- A module is analysed by itself. If its name is free, the table of its body becomes an entry. -/
theorem moduleDecl_ends (hk : h.kind = .moduleDef) {fs} (hw : W (.mk h cs fs b))
    (hrun : ∀ r, run = some r → r = ModuleRun.ofBody cfg below cs) (hs : Fit I s) :
    Ends I s (moduleDecl cfg below h run cs) fun s' cs' =>
      R s' (.mk h cs fs b) (.mk h cs' fs b) := by
  have hbody := body_ends hC hb (hC.operands hw) hC.fit_init
  have hstack : (body cfg below cs {}).2.table.stack = [] :=
    List.eq_nil_of_length_eq_zero hbody.leads.depth
  rcases redefined_run h.name h.loc s with ⟨hfree, -⟩ | ⟨e, -, htaken⟩
  · have hsound : (s.adopt h (body cfg below cs {}).2).table.Sound := by
      refine hs.sound.insert (fun _ => hfree) ⟨rfl, rfl⟩ fun body' hbody' => ?_
      cases hbody'
      exact ⟨hstack, hbody.fit.sound⟩
    refine .of_run (moduleDecl_adopts hrun hfree) ⟨hsound, hC.module hw hs hfree hbody.fit hstack⟩
      ⟨?_, Table.contexts_insert _ _⟩ (hC.accepted hw hk hs hfree hbody.fit hstack hbody.post)
    exact ⟨(leads_insert_free (s := s) hfree).defines, List.prefix_append _ _⟩
  · refine .of_run (moduleDecl_taken htaken) (hC.fit_touches hs (State.touches_report s _))
      (State.leads_report s _) ?_
    cases run with
    | none =>
      exact hC.rejected hw hk (by simp) hbody.fit (hC.same_all (hC.operands hw))
    | some r =>
      obtain rfl := hrun r rfl
      exact hC.rejected hw hk (by simp) hbody.fit hbody.post

/-! ## Blocks, conditionals and loops -/

theorem blockBody_ends (safety : Safety) {nodes} (hw : ∀ n ∈ nodes, W n) (hs : Fit I s) :
    Ends I s (blockBody cfg below safety nodes) fun s' ns => List.Forall₂ (R s') nodes ns :=
  (Ends.symbols hs).bind fun _ _ hs₁ _ _ =>
    hC.inScope hs₁ _ (fun _ hs₂ _ => body_ends hC hb hw hs₂) fun _ _ _ hl => hC.later_all hl

omit hb in
/-- A block around other statements. -/
theorem keep_block (hn : W n) (hk : n.kind? = some .block) {cs'}
    (hcs : List.Forall₂ (R s) n.children cs') : R s n (n.withChildren cs') := by
  cases n with
  | absent => exact hC.same hn
  | mk h cs fs b =>
    have hkind : h.kind = .block := Option.some.inj hk
    exact hC.keep hn (by rw [hkind]; decide) hcs

theorem branch_ends (hn : W n) (hs : Fit I s) :
    Ends I s (branch cfg below n) fun s' n' => R s' n n' := by
  unfold branch
  split
  · rename_i hk
    exact (body_ends hC hb (hC.children hn) hs).bind fun cs' s₁ hs₁ _ hcs =>
      .pure hs₁ (keep_block hC hn hk hcs)
  · exact hb.stmt hn nofun hs

theorem branches_ends : ∀ {ns : List Node} {s : State}, (∀ n ∈ ns, W n) → Fit I s →
    Ends I s (branches cfg below ns) fun s' ns' => List.Forall₂ (R s') ns ns'
  | [], _, _, hs => .pure hs .nil
  | n :: rest, s, hw, hs => by
    obtain ⟨hn, hrest⟩ := List.forall_mem_cons.1 hw
    exact (branch_ends hC hb hn hs).bind fun n' s₁ hs₁ _ hn' =>
      (branches_ends hrest hs₁).bind fun rest' s₂ hs₂ hl₂ hrest' =>
        .pure hs₂ (.cons (hC.later hl₂.toLater hn') hrest')

theorem conditional_ends (h : Head) (hw : ∀ n ∈ cs, W n) (hs : Fit I s) :
    Ends I s (conditional cfg below h cs) fun s' cs' => List.Forall₂ (R s') cs cs' := by
  unfold conditional
  split
  · rename_i condition rest
    obtain ⟨hc, hrest⟩ := List.forall_mem_cons.1 hw
    exact (exprOf_ends hC hb _ hc hs).bind fun r s₁ hs₁ _ hr =>
      (branches_ends hC hb hrest hs₁).bind fun rest' s₂ hs₂ hl₂ hrest' =>
        .pure hs₂ (.cons (hC.later hl₂.toLater hr) hrest')
  · exact hC.report_pure hs _ _ fun _ _ => .nil

theorem loopBody_ends : ∀ {ns : List Node} {s : State}, (∀ n ∈ ns, W n) → Fit I s →
    Ends I s (loopBody cfg below ns) fun s' ns' => List.Forall₂ (R s') ns ns'
  | [], _, _, hs => .pure hs .nil
  | [n], s, hw, hs => by
    have hn := hw n (.head _)
    refine (Ends.symbols hs).bind fun t s₀ hs₀ _ _ => ?_
    refine hC.inScope hs₀ _ (fun s₁ hs₁ _ => ?_) fun _ _ _ hl => hC.later_all hl
    split
    · rename_i hk
      exact (body_ends hC hb (hC.children hn) hs₁).bind fun cs' s₂ hs₂ _ hcs =>
        .pure hs₂ (.cons (keep_block hC hn hk hcs) .nil)
    · exact body_ends hC hb hw hs₁
  | n :: m :: rest, s, hw, hs => by
    obtain ⟨hn, hrest⟩ := List.forall_mem_cons.1 hw
    exact Ends.bind (loopBody_ends hrest hs) fun rest' s₁ hs₁ _ hrest' =>
      .pure hs₁ (.cons (hC.same hn) hrest')

theorem loop_ends (h : Head) (hw : ∀ n ∈ cs, W n) (hs : Fit I s) :
    Ends I s (loop cfg below h cs) fun s' cs' => List.Forall₂ (R s') cs cs' := by
  unfold loop
  split
  · exact hC.report_pure hs _ _ fun _ _ => .nil
  · rename_i first rest
    split
    · obtain ⟨hc, hrest⟩ := List.forall_mem_cons.1 hw
      exact (exprOf_ends hC hb _ hc hs).bind fun r s₁ hs₁ _ hr =>
        (loopBody_ends hC hb hrest hs₁).bind fun rest' s₂ hs₂ hl₂ hrest' =>
          .pure hs₂ (.cons (hC.later hl₂.toLater hr) hrest')
    · exact loopBody_ends hC hb hw hs

theorem returnStmt_ends (h : Head) (hw : ∀ n ∈ cs, W n) (hs : Fit I s) :
    Ends I s (returnStmt below.expr h cs) fun s' cs' => List.Forall₂ (R s') cs cs' := by
  refine (Ends.get hs).bind fun s₀ s₁ hs₁ _ _ => ?_
  refine (Ends.symbols hs₁).bind fun t s₂ hs₂ _ _ => ?_
  have houtside : Ends I s₂ (do report h.loc .outsideFunction; return cs : Analysis _)
      fun s' cs' => List.Forall₂ (R s') cs cs' := hC.report_pure hs₂ _ _ fun _ _ => hC.same_all hw
  rcases s₀.returns with _ | ⟨expected, _⟩
  · exact houtside
  · rcases t.context.inFunction with _ | _
    · exact houtside
    · cases cs with
      | nil =>
        exact (hC.ensures hs₂ fun s => accepts_ensures (touches_stable s) _ _ _).bind
          fun _ _ hs₃ _ _ => .pure hs₃ .nil
      | cons value rest =>
        obtain ⟨hv, hrest⟩ := List.forall_mem_cons.1 hw
        exact (exprOf_ends hC hb _ hv hs₂).bind fun r s₃ hs₃ _ hr =>
          .pure hs₃ (.cons hr (hC.same_all hrest))

/-! ## Statements -/

/-- A statement ends in a later state with the property, and what is made of it is related to it,
if that is so for the nodes below it. -/
theorem stmtStep_ends : ∀ {n : Node} {s : State}, W n →
    (∀ r, run = some r → r = ModuleRun.ofBody cfg below n.children) → Fit I s →
    Ends I s (stmtStep cfg below run n) fun s' n' => R s' n n'
  | .absent, s, hn, _, hs => hC.report_pure hs _ _ fun _ _ => hC.same hn
  | .mk h cs fs b, s, hn, hrun, hs => by
    have hcs := hC.operands hn
    -- a statement with other operands
    have hkeep : ∀ {m : Analysis (List Node)}, h.kind ≠ .moduleDef →
        (Ends I s m fun s' cs' => List.Forall₂ (R s') cs cs') →
        Ends I s (m >>= fun cs' => pure (.mk h cs' fs b)) fun s' n' => R s' (.mk h cs fs b) n' :=
      fun hk hm => hm.bind fun _ _ hs₁ _ hcs' => .pure hs₁ (hC.keep hn hk hcs')
    -- a statement that is left as it is
    have hsame : ∀ {m : Analysis Unit}, (Ends I s m fun _ _ => True) →
        Ends I s (m >>= fun _ => pure (.mk h cs fs b)) fun s' n' => R s' (.mk h cs fs b) n' :=
      fun hm => hm.bind fun _ _ hs₁ _ _ => .pure hs₁ (hC.same hn)
    have hjump : Ends I s (jump h) fun _ _ => True :=
      hC.ensures hs fun s => jump_ensures (touches_stable s).reports h
    unfold stmtStep
    dsimp only
    split
    · rename_i hk
      exact (moduleDecl_ends hC hb hk hn hrun hs).bind fun _ _ hs₁ _ hr => .pure hs₁ hr
    · rename_i hk; exact hsame (hC.settles hn hs (record_settles fs (.inl hk)) trivial)
    · rename_i hk; exact hsame (hC.settles hn hs (record_settles fs (.inr hk)) trivial)
    · rename_i hk; exact hsame (hC.settles hn hs (enum_settles hk) trivial)
    · rename_i hk; exact hsame (hC.settles hn hs (variant_settles hk) trivial)
    · rename_i hk
      refine (function_ends hC hk _ hn (fun s₁ hs₁ => body_ends hC hb (hC.bodies hn) hs₁) hs).bind
        fun b' s₁ hs₁ _ hb' => .pure hs₁ ?_
      obtain ⟨cs', rfl, hcs'⟩ := hb'
      exact hC.function hn hk hcs'
    · exact hsame (externItems_ends hC hcs hs)
    · rename_i hk; exact hsame (hC.settles hn hs (aliasDecl_settles hk) trivial)
    iterate 3
      rename_i hk
      exact hkeep (by rw [hk]; decide) (variableDecl_ends hC hb h _ hcs hs)
    · rename_i hk; exact hkeep (by rw [hk]; decide) (blockBody_ends hC hb _ hcs hs)
    · rename_i hk; exact hkeep (by rw [hk]; decide) (blockBody_ends hC hb _ hcs hs)
    · rename_i hk; exact hkeep (by rw [hk]; decide) (conditional_ends hC hb h hcs hs)
    · rename_i hk; exact hkeep (by rw [hk]; decide) (loop_ends hC hb h hcs hs)
    · rename_i hk; exact hkeep (by rw [hk]; decide) (loop_ends hC hb h hcs hs)
    · exact hsame hjump
    · exact hsame hjump
    · rename_i hk; exact hkeep (by rw [hk]; decide) (returnStmt_ends hC hb h hcs hs)
    · rename_i hk
      exact (hb.assign hk hn hs).bind fun _ _ hs₁ _ hr => .pure hs₁ hr
    · exact hC.report_pure hs _ _ fun _ _ => hC.same hn
    · exact (hb.expr .unknown hn hs).bind fun r s₁ hs₁ _ hr => .pure hs₁ hr

end Rules

section Levels

variable (hC : Carried cfg W I R)

include hC

theorem exprAt_ends (k : Nat) {n} (expected : Ty) (hn : W n) (hs : Fit I s) :
    Ends I s (exprAt cfg k n expected) fun s' r => R s' n r.1 :=
  hC.touches hs (exprAt_touches cfg k n expected s) (hC.expr k expected hn hs)

/-- An assignment is analysed like the expression that it is. -/
theorem assign_ends (k : Nat) {h : Head} {cs fs b} (hk : h.kind = .assign) (hn : W (.mk h cs fs b))
    (hs : Fit I s) :
    Ends I s (assign (exprAt cfg k) h cs) fun s' r => R s' (.mk h cs fs b) (.mk h r.1 fs b) := by
  have hexpr := exprAt_ends hC (k + 1) .unknown hn hs
  have hrun : exprAt cfg (k + 1) (.mk h cs fs b) .unknown
      = assign (exprAt cfg k) h cs >>= fun r => pure (.mk h r.1 fs b, unitIf r.2) := by
    unfold exprAt exprStep
    simp only [hk]
  rw [hrun] at hexpr
  exact ⟨hexpr.fit, hexpr.leads, hexpr.post⟩

/-- Statements and expressions are analysed so, with any number of levels left. -/
theorem belowAt_carries (schedule : Schedule) : ∀ k, (belowAt cfg schedule k).Carries W I R
  | 0 => {
    touches := fun s => exprAt_relates (touches_stable s) (trivial_rewriting _) cfg 0
    expr := fun expected _ hn hs => exprAt_ends hC 0 expected hn hs
    assign := fun hk hn hs => assign_ends hC 0 hk hn hs
    stmt := fun hn _ hs =>
      (hC.ensures hs fun s => (touches_stable s).refuse_ensures cfg _).bind
        fun _ _ hs₁ _ _ => .pure hs₁ (hC.same hn) }
  | k + 1 => {
    touches := fun s => exprAt_relates (touches_stable s) (trivial_rewriting _) cfg (k + 1)
    expr := fun expected _ hn hs => exprAt_ends hC (k + 1) expected hn hs
    assign := fun hk hn hs => assign_ends hC (k + 1) hk hn hs
    stmt := fun hn hrun hs => stmtStep_ends hC (belowAt_carries schedule k) hn hrun hs }

/-- What is made of a program: its statements are analysed in a run of their own. -/
theorem program_ends (schedule : Schedule) (tree : Node) (hw : ∀ c ∈ tree.children, W c) :
    Ends I {} (program cfg schedule tree) fun s' tree' => tree' = tree ∨
      tree.kind? = some .program ∧
        ∃ cs', tree' = tree.withChildren cs' ∧ List.Forall₂ (R s') tree.children cs' := by
  unfold program
  split
  · rename_i hk
    exact (body_ends hC (belowAt_carries hC schedule cfg.depthLimit) hw hC.fit_init).bind
      fun cs' s₁ hs₁ _ hcs => .pure hs₁ (.inr ⟨hk, cs', rfl, hcs⟩)
  · exact hC.report_pure hC.fit_init _ _ fun _ _ => .inl rfl

end Levels

end TreeSema.Analysis
