import TreeSema.Proofs.Respect

/-!
# Two runs over one tree

An analysis may be run with other jobs, schedules or limits. `Reruns W R m m'` compares a step of one
run with a step of another: where the first ends in a state of which `W` holds, the second ends in the
same state, with a related result. What `W` says is to hold of all states before one of which it
holds, so that it can be asked for at the end only.

The runs may differ in what is in a module whose name is taken: it is put aside as it was, or as
analysis ahead has left it. `Alike p` compares trees apart from what is in the nodes that `p` picks
out.

* `moduleDecl_reruns`: a module does the same in both runs, however its body was analysed.
* `stmtStep_reruns`: so does every statement, if the nodes below it do.
-/
namespace TreeSema

/-! ## Trees apart from what is in some nodes -/

namespace Node

variable {p : Head → Bool}

mutual

/-- The tree without the operands of the nodes that `p` picks out. -/
def emptied (p : Head → Bool) : Node → Node
  | absent => absent
  | mk h cs fs b => mk h (if p h then [] else emptiedAll p cs) fs (emptied p b)

def emptiedAll (p : Head → Bool) : List Node → List Node
  | [] => []
  | n :: ns => emptied p n :: emptiedAll p ns

end

/-- Two trees with the same nodes apart from those in the nodes that `p` picks out. -/
def Alike (p : Head → Bool) (n n' : Node) : Prop := n.emptied p = n'.emptied p

/-- The same of trees in a row. -/
def AlikeAll (p : Head → Bool) (ns ns' : List Node) : Prop := emptiedAll p ns = emptiedAll p ns'

theorem AlikeAll.cons {n n' : Node} {ns ns'} (hn : n.Alike p n') (hns : AlikeAll p ns ns') :
    AlikeAll p (n :: ns) (n' :: ns') := by
  unfold AlikeAll
  rw [emptiedAll, emptiedAll, hn, hns]

theorem Alike.mk {h cs cs'} {b b' : Node} (fs : List (Component Node))
    (hcs : p h = false → AlikeAll p cs cs') (hb : b.Alike p b') :
    (Node.mk h cs fs b).Alike p (.mk h cs' fs b') := by
  unfold Alike
  rw [emptied, emptied, hb]
  split
  · rfl
  · rw [hcs (Bool.eq_false_iff.2 ‹_›)]

theorem Alike.withChildren {cs cs'} (h : AlikeAll p cs cs') (n : Node) :
    (n.withChildren cs).Alike p (n.withChildren cs') := by
  cases n with
  | absent => rfl
  | mk => exact .mk _ (fun _ => h) rfl

mutual

/-- Where no node is picked out, nothing is taken away. -/
theorem emptied_none : ∀ n : Node, n.emptied (fun _ => false) = n
  | absent => rfl
  | mk h cs fs b => by rw [emptied, emptiedAll_none cs, emptied_none b]; rfl

theorem emptiedAll_none : ∀ ns : List Node, emptiedAll (fun _ => false) ns = ns
  | [] => rfl
  | n :: ns => by rw [emptiedAll, emptied_none n, emptiedAll_none ns]

end

end Node

namespace Analysis

open Node (Alike AlikeAll)

variable {α β : Type} {W : State → Prop} {R : α → α → Prop} {Q : β → β → Prop}

/-! ## Steps of two runs -/

/-- The second step ends in the state of the first, with a related result, wherever `W` holds of that
state. -/
structure Reruns (W : State → Prop) (R : α → α → Prop) (m m' : Analysis α) : Prop where
  growing : Growing m
  result : ∀ s, W (m s).2 → R (m s).1 (m' s).1
  state : ∀ s, W (m s).2 → (m' s).2 = (m s).2

/-- What holds of a state holds of the states that it comes from. -/
def Backwards (W : State → Prop) : Prop := ∀ {s₀ s : State}, s₀.Grows s → W s → W s₀

namespace Reruns

variable {m m' : Analysis α} {f f' : α → Analysis β}

theorem refl (hm : Growing m) : Reruns W Eq m m :=
  ⟨hm, fun _ _ => rfl, fun _ _ => rfl⟩

theorem pure {a a' : α} (h : R a a') : Reruns W R (Pure.pure a) (Pure.pure a') :=
  ⟨.pure a, fun _ _ => h, fun _ _ => rfl⟩

/-- The same step, and then another. -/
theorem after (hm : Growing m)
    (hf : ∀ a, Reruns W Q (f a) (f' a)) : Reruns W Q (m >>= f) (m >>= f') :=
  ⟨hm.bind fun a => (hf a).growing, fun _ => (hf _).result _, fun _ => (hf _).state _⟩

section Closed

variable (hW : Backwards W)

include hW

theorem bind (hm : Reruns W R m m')
    (hf : ∀ a a', R a a' → Reruns W Q (f a) (f' a')) (hgrowing : ∀ a, Growing (f a)) :
    Reruns W Q (m >>= f) (m' >>= f') := by
  have hfirst : ∀ s, W ((m >>= f) s).2 → W (m s).2 := fun s hs => hW (hgrowing _ _) hs
  refine ⟨hm.growing.bind hgrowing, fun s hs => ?_, fun s hs => ?_⟩
  all_goals
    have hnext := hf _ _ (hm.result s (hfirst s hs))
    rw [bind_apply, bind_apply, hm.state s (hfirst s hs)]
  · exact hnext.result _ hs
  · exact hnext.state _ hs

/-- Steps with equal results, one after the other. -/
theorem andThen (hm : Reruns W Eq m m')
    (hf : ∀ a, Reruns W Q (f a) (f' a)) : Reruns W Q (m >>= f) (m' >>= f') := by
  refine hm.bind hW (fun a a' h => ?_) fun a => (hf a).growing
  subst h
  exact hf a

/-- Steps one after the other, the second of which does not look at the result of the first. -/
theorem map₂ {γ : Type} {S : γ → γ → Prop} {k k'} {g g' : α → β → γ} (hm : Reruns W R m m')
    (hk : Reruns W Q k k') (hg : ∀ {a a' b b'}, R a a' → Q b b' → S (g a b) (g' a' b')) :
    Reruns W S (do let a ← m; let b ← k; return g a b) (do let a ← m'; let b ← k'; return g' a b) :=
  hm.bind hW (fun _ _ ha => hk.bind hW (fun _ _ hb => .pure (hg ha hb)) fun _ => .pure _) fun _ =>
    hk.growing.bind fun _ => .pure _

theorem inScope (hm : Reruns W R m m') (context : Context) :
    Reruns W R (Analysis.inScope context m) (Analysis.inScope context m') :=
  .after (growing_modifyTable _) fun _ => hm.map₂ hW (.refl (growing_modifyTable _)) fun h _ => h

theorem returning (hm : Reruns W R m m') (result : Ty) :
    Reruns W R (Analysis.returning result m) (Analysis.returning result m') :=
  .after (growing_modifyReturns _) fun _ => hm.map₂ hW (.refl (growing_modifyReturns _)) fun h _ => h

theorem respected : Respected Eq fun _ m m' => Reruns W Eq m m' :=
  .of_same (fun _ => .pure rfl) (fun hm hf => hm.andThen hW hf) (.refl growing_symbols)
    fun _ _ _ => .refl (growing_report _ _)

theorem assignName {below below'}
    (hb : ∀ n expected, Reruns W Eq (below n expected) (below' n expected)) (h target : Head)
    (value : Node) : Reruns W Eq (Analysis.assignName below h target value)
      (Analysis.assignName below' h target value) :=
  Respected.assignName (respected hW) (fun _ => .refl (growing_modifyTable _)) hb h target value

end Closed

theorem map {g g' : α → β} (hm : Reruns W R m m') (hg : ∀ a a', R a a' → Q (g a) (g' a')) :
    Reruns W Q (do return g (← m)) (do return g' (← m')) :=
  ⟨hm.growing.bind fun _ => .pure _, fun s hs => hg _ _ (hm.result s hs), hm.state⟩

end Reruns

/-! ## Rules for statements -/

theorem growing_redefined (name : Ident) (loc : Location) : Growing (redefined name loc) :=
  .of_ensures fun s₀ => redefined_ensures (grows_kept s₀).reports name loc

/-- It makes no difference whether a module takes a run made ahead or makes that run itself. -/
theorem getD_of_ahead {run : Option ModuleRun} {r} (h : ∀ r', run = some r' → r' = r) :
    run.getD r = r := by
  cases run with
  | none => rfl
  | some r' => exact h r' rfl

/-- What looking ahead leaves with a statement: the run over its body, or none, and none at all
unless that was asked for. -/
structure AheadIn (cfg : Config) (below : Below) (slot : Option ModuleRun × Node) : Prop where
  run : AheadOf below slot
  sequential : cfg.looksAhead = false → slot.1 = none

theorem AheadIn.none (cfg : Config) (below : Below) (n : Node) : AheadIn cfg below (none, n) :=
  ⟨nofun, fun _ => rfl⟩

theorem lookAhead_aheadIn (cfg : Config) (below : Below) (nodes : List Node) :
    ∀ slot ∈ lookAhead cfg below nodes, AheadIn cfg below slot := by
  refine fun slot hslot => ⟨lookAhead_aheadOf cfg below nodes slot hslot, fun hcfg => ?_⟩
  rw [lookAhead, hcfg] at hslot
  obtain ⟨n, -, rfl⟩ := List.mem_map.1 hslot
  rfl

/-- Analysis of the nodes below that `V` holds of, in two runs. What is found in the body of a module
tells whether `W` holds at its end. -/
structure Below.Reruns (W : State → Prop) (V : Node → Prop) (p : Head → Bool) (cfg cfg' : Config)
    (below below' : Below) : Prop where
  expr : ∀ n expected, Analysis.Reruns W Eq (below.expr n expected) (below'.expr n expected)
  stmt : ∀ {run run' : Option ModuleRun} {n : Node}, V n → AheadIn cfg below (run, n) →
    AheadIn cfg' below' (run', n) →
    Analysis.Reruns W (Alike p) (below.stmt run n) (below'.stmt run' n)
  module : ∀ {s : State} {nodes : List Node}, W s →
    (∀ f ∈ (body cfg below nodes {}).2.findings, f ∈ s.findings) → W (body cfg below nodes {}).2

/-- What is asked of the ends of runs, and of trees. A module that is reported as a redefinition is
picked out by `p`, unless no module is analysed ahead. -/
structure Comparable (W : State → Prop) (V : Node → Prop) (p : Head → Bool) (cfg cfg' : Config) :
    Prop where
  backwards : Backwards W
  hereditary : Hereditary V
  module : ∀ {h : Head} {cs fs b} {s : State},
    V (.mk h cs fs b) → h.kind = .moduleDef → p h = false → W s →
    ⟨h.loc, .redefined h.name⟩ ∈ s.findings → cfg.looksAhead = false ∧ cfg'.looksAhead = false

section Rules

variable {V : Node → Prop} {p : Head → Bool} {below below' : Below} {cfg cfg' : Config}
  (hp : Comparable W V p cfg cfg') (hb : below.Reruns W V p cfg cfg' below')

include hp hb

theorem statements_reruns : ∀ {slots slots' : List (Option ModuleRun × Node)},
    slots.map (·.2) = slots'.map (·.2) → (∀ slot ∈ slots, V slot.2 ∧ AheadIn cfg below slot) →
    (∀ slot ∈ slots', AheadIn cfg' below' slot) →
    Reruns W (AlikeAll p) (statements below slots) (statements below' slots')
  | [], [], _, _, _ => .pure rfl
  | (run, n) :: rest, (run', n') :: rest', hmap, hs, hs' => by
    obtain ⟨hn, hrest⟩ := List.cons.inj hmap
    obtain rfl : n = n' := hn
    obtain ⟨⟨hn, hrun⟩, hs⟩ := List.forall_mem_cons.1 hs
    obtain ⟨hrun', hs'⟩ := List.forall_mem_cons.1 hs'
    exact (hb.stmt hn hrun hrun').map₂ hp.backwards (statements_reruns hrest hs hs') .cons

theorem body_reruns {nodes} (hn : ∀ n ∈ nodes, V n) :
    Reruns W (AlikeAll p) (body cfg below nodes) (body cfg' below' nodes) := by
  have hmap : (lookAhead cfg below nodes).map (·.2) = (lookAhead cfg' below' nodes).map (·.2) := by
    rw [map_lookAhead, map_lookAhead]
  have hslots : ∀ slot ∈ lookAhead cfg below nodes, V slot.2 ∧ AheadIn cfg below slot := by
    refine fun slot hslot => ⟨hn _ ?_, lookAhead_aheadIn cfg below nodes slot hslot⟩
    rw [← map_lookAhead cfg below nodes]
    exact List.mem_map_of_mem hslot
  refine .after growing_get fun s => ?_
  refine (statements_reruns hp hb hmap hslots (lookAhead_aheadIn cfg' below' nodes)).map₂
    hp.backwards (.refl ?_) fun h _ => h
  exact .of_ensures fun s₀ => settleDeclared_ensures (grows_kept s₀).toFramed _

variable {run run' : Option ModuleRun} {h : Head} {cs : List Node} {fs : List (Component Node)}
  {b : Node}

/-- A module does the same in both runs, whether its body was analysed ahead or not. -/
theorem moduleDecl_reruns (hn : V (.mk h cs fs b)) (hkind : h.kind = .moduleDef)
    (hrun : ∀ r, run = some r → r = ModuleRun.ofBody cfg below cs)
    (hrun' : ∀ r, run' = some r → r = ModuleRun.ofBody cfg' below' cs)
    (hnone : cfg.looksAhead = false → run = none) (hnone' : cfg'.looksAhead = false → run' = none) :
    Reruns W (fun ns ns' => p h = false → AlikeAll p ns ns') (moduleDecl cfg below h run cs)
      (moduleDecl cfg' below' h run' cs) := by
  have hr := getD_of_ahead hrun
  have hr' := getD_of_ahead hrun'
  have hbody := body_reruns hp hb (hp.hereditary.operands hn)
  -- the findings in the body are among those made here
  have hinner : ∀ s : State, W { s with
      findings := s.findings ++ (ModuleRun.ofBody cfg below cs).findings
      table := s.table.insert (.definition h.name
        (.moduleDef (some (.table (ModuleRun.ofBody cfg below cs).table))) h.loc) } →
      W (body cfg below cs {}).2 :=
    fun s hs => hb.module hs fun f hf => List.mem_append_right _ hf
  refine ⟨fun s => ?_, fun s hs => ?_, fun s hs => ?_⟩
  all_goals rcases redefined_run h.name h.loc s with ⟨-, hfree⟩ | ⟨e, -, htaken⟩
  · rw [moduleDecl_free hfree]
    exact (State.Grows.refl s).append _ rfl rfl
  · rw [moduleDecl_taken htaken]
    exact (State.Grows.refl s).append [_] rfl rfl
  · rw [moduleDecl_free hfree, hr] at hs
    rw [moduleDecl_free hfree, moduleDecl_free hfree, hr, hr', ofBody_eq, ofBody_eq]
    exact fun _ => hbody.result {} (hinner s hs)
  · -- the report of the module says that it is picked out, unless no module is analysed ahead
    rw [moduleDecl_taken htaken] at hs
    rw [moduleDecl_taken htaken, moduleDecl_taken htaken]
    intro hkept
    obtain ⟨hcfg, hcfg'⟩ := hp.module hn hkind hkept hs (List.mem_append_right _ (.head _))
    rw [hnone hcfg, hnone' hcfg']
    rfl
  · rw [moduleDecl_free hfree, hr] at hs
    rw [moduleDecl_free hfree, moduleDecl_free hfree, hr, hr', ofBody_eq, ofBody_eq,
      hbody.state {} (hinner s hs)]
  · rw [moduleDecl_taken htaken, moduleDecl_taken htaken]

theorem blockBody_reruns (safety : Safety) {nodes} (hn : ∀ n ∈ nodes, V n) :
    Reruns W (AlikeAll p) (blockBody cfg below safety nodes)
      (blockBody cfg' below' safety nodes) :=
  .after growing_symbols fun _ => (body_reruns hp hb hn).inScope hp.backwards _

theorem branch_reruns {n} (hn : V n) :
    Reruns W (Alike p) (branch cfg below n) (branch cfg' below' n) := by
  unfold branch
  split
  · exact (body_reruns hp hb (hp.hereditary.children hn)).map fun _ _ hcs => .withChildren hcs n
  · exact hb.stmt hn (.none cfg below n) (.none cfg' below' n)

theorem branches_reruns : ∀ {ns : List Node}, (∀ n ∈ ns, V n) →
    Reruns W (AlikeAll p) (branches cfg below ns) (branches cfg' below' ns)
  | [], _ => .pure rfl
  | n :: rest, hns => by
    obtain ⟨hn, hrest⟩ := List.forall_mem_cons.1 hns
    exact (branch_reruns hp hb hn).map₂ hp.backwards (branches_reruns hrest) .cons

/-- An expression that has to have a type. -/
theorem exprOf_reruns (type : Ty) (n : Node) :
    Reruns W Eq (exprOf below.expr type n) (exprOf below'.expr type n) :=
  (Reruns.respected hp.backwards).exprOf hb.expr type n

theorem conditional_reruns (h : Head) : ∀ {cs : List Node}, (∀ n ∈ cs, V n) →
    Reruns W (AlikeAll p) (conditional cfg below h cs) (conditional cfg' below' h cs)
  | [], _ => .after (growing_report _ _) fun _ => .pure rfl
  | condition :: rest, hcs => by
    unfold conditional
    refine (exprOf_reruns hp hb _ _).andThen hp.backwards fun r => ?_
    exact (branches_reruns hp hb (List.forall_mem_cons.1 hcs).2).map fun _ _ => .cons rfl

theorem loopBody_reruns : ∀ {ns : List Node}, (∀ n ∈ ns, V n) →
    Reruns W (AlikeAll p) (loopBody cfg below ns) (loopBody cfg' below' ns)
  | [], _ => .pure rfl
  | [n], hns => by
    refine .after growing_symbols fun t => Reruns.inScope hp.backwards ?_ _
    split
    · exact (body_reruns hp hb (hp.hereditary.children (hns n (.head _)))).map fun _ _ hcs =>
        AlikeAll.cons (.withChildren hcs n) rfl
    · exact body_reruns hp hb hns
  | n :: m :: rest, hns =>
    (loopBody_reruns (List.forall_mem_cons.1 hns).2).map fun _ _ => AlikeAll.cons rfl

theorem loop_reruns (h : Head) : ∀ {cs : List Node}, (∀ n ∈ cs, V n) →
    Reruns W (AlikeAll p) (loop cfg below h cs) (loop cfg' below' h cs)
  | [], _ => .after (growing_report _ _) fun _ => .pure rfl
  | first :: rest, hcs => by
    rw [loop, loop]
    split
    · refine (exprOf_reruns hp hb _ _).andThen hp.backwards fun condition => ?_
      exact (loopBody_reruns hp hb (List.forall_mem_cons.1 hcs).2).map fun _ _ => .cons rfl
    · exact loopBody_reruns hp hb hcs

omit hb in
theorem function_reruns (h : Head) (flags : Attributes) (b : Node)
    {analyse analyse' : List Node → Analysis (List Node)}
    (ha : Reruns W (AlikeAll p) (analyse b.children) (analyse' b.children)) :
    Reruns W (Alike p) (function h flags b analyse) (function h flags b analyse') := by
  refine .after (growing_redefined _ _) fun taken => ?_
  split
  · exact .pure rfl
  · refine .after (.of_ensures fun s₀ => declareFunction_ensures (grows_kept s₀).defining _ _)
      fun params => ?_
    split
    · exact .pure rfl
    · split
      · exact .after (growing_report _ _) fun _ => .pure rfl
      · refine Reruns.inScope hp.backwards (.after ?_ fun _ => ?_) _
        · exact .of_ensures fun s₀ => bindFormals_ensures (grows_kept s₀).binds _
        · exact (ha.returning hp.backwards _).map fun _ _ hcs => .withChildren hcs b

theorem variableDecl_reruns (h : Head) (storage : Storage) (cs : List Node) :
    Reruns W Eq (variableDecl below.expr h storage cs)
      (variableDecl below'.expr h storage cs) := by
  refine .after (growing_redefined _ _) fun taken => ?_
  split
  · exact .pure rfl
  · dsimp only
    split
    · cases cs with
      | nil => exact .after (growing_report _ _) fun _ => .pure rfl
      | cons init rest =>
        refine (hb.expr init .unknown).andThen hp.backwards fun r => ?_
        obtain ⟨init', type⟩ := r
        cases type with
        | none => exact .after (.pure _) fun _ => .pure rfl
        | some type => exact .after (growing_modifyTable _) fun _ => .pure rfl
    · refine ((Reruns.respected hp.backwards).checkType _ _).andThen hp.backwards fun _ => ?_
      refine .after (growing_modifyTable _) fun _ => ?_
      cases cs with
      | nil => exact .pure rfl
      | cons init rest =>
        refine (exprOf_reruns hp hb _ _).andThen hp.backwards fun r => ?_
        exact .after (growing_modifyTable _) fun _ => .pure rfl

theorem returnStmt_reruns (h : Head) (cs : List Node) :
    Reruns W Eq (returnStmt below.expr h cs) (returnStmt below'.expr h cs) := by
  refine .after growing_get fun s => .after growing_symbols fun t => ?_
  split
  · cases cs with
    | nil =>
      exact ((Reruns.respected hp.backwards).accepts _ _ _).andThen hp.backwards fun _ => .pure rfl
    | cons value rest => exact (exprOf_reruns hp hb _ _).andThen hp.backwards fun _ => .pure rfl
  · exact .after (growing_report _ _) fun _ => .pure rfl

/-- A statement does the same in both runs, if the nodes below it do. -/
theorem stmtStep_reruns {n : Node} (hn : V n)
    (hrun : ∀ r, run = some r → r = ModuleRun.ofBody cfg below n.children)
    (hrun' : ∀ r, run' = some r → r = ModuleRun.ofBody cfg' below' n.children)
    (hnone : cfg.looksAhead = false → run = none) (hnone' : cfg'.looksAhead = false → run' = none) :
    Reruns W (Alike p) (stmtStep cfg below run n) (stmtStep cfg' below' run' n) := by
  cases n with
  | absent => exact .after (growing_report _ _) fun _ => .pure rfl
  | mk h cs fs b =>
    have hcs := hp.hereditary.operands hn
    -- statements without statements or expressions below them
    have hsame : ∀ {m : Analysis Unit}, (∀ s₀ : State, Ensures s₀.Grows m fun _ => True) →
        Reruns W (Alike p) (do m; return Node.mk h cs fs b) (do m; return Node.mk h cs fs b) :=
      fun hm => .after (.of_ensures hm) fun _ => .pure rfl
    have hexprs : ∀ {m m' : Analysis (List Node)}, Reruns W Eq m m' →
        Reruns W (Alike p) (do return Node.mk h (← m) fs b) (do return Node.mk h (← m') fs b) :=
      fun hm => hm.map fun _ _ hcs => hcs ▸ rfl
    have hstmts : ∀ {m m' : Analysis (List Node)}, Reruns W (AlikeAll p) m m' →
        Reruns W (Alike p) (do return Node.mk h (← m) fs b) (do return Node.mk h (← m') fs b) :=
      fun hm => hm.map fun _ _ hcs => .mk fs (fun _ => hcs) rfl
    unfold stmtStep
    dsimp only
    split
    · rename_i hk
      exact (moduleDecl_reruns hp hb hn hk hrun hrun' hnone hnone').map fun _ _ hcs =>
        .mk fs hcs rfl
    · exact hsame fun s₀ => record_ensures (grows_kept s₀).defining h fs
    · exact hsame fun s₀ => record_ensures (grows_kept s₀).defining h fs
    · exact hsame fun s₀ => enum_ensures (grows_kept s₀).defining h
    · exact hsame fun s₀ => variant_ensures (grows_kept s₀).defining h
    · exact (function_reruns hp h _ b (body_reruns hp hb (hp.hereditary.body hn))).map
        fun _ _ hb => .mk fs (fun _ => rfl) hb
    · exact hsame fun s₀ => externItems_ensures (grows_kept s₀) cs
    · exact hsame fun s₀ => aliasDecl_ensures (grows_kept s₀).defining h
    iterate 3 exact hexprs (variableDecl_reruns hp hb h _ cs)
    iterate 2 exact hstmts (blockBody_reruns hp hb _ hcs)
    · exact hstmts (conditional_reruns hp hb h hcs)
    iterate 2 exact hstmts (loop_reruns hp hb h hcs)
    iterate 2 exact hsame fun s₀ => jump_ensures (grows_kept s₀).reports h
    · exact hexprs (returnStmt_reruns hp hb h cs)
    · exact ((Reruns.respected hp.backwards).assign hb.expr
        (Reruns.assignName hp.backwards hb.expr) h cs).andThen hp.backwards fun _ => .pure rfl
    · exact hsame fun s₀ => (grows_kept s₀).report_ensures _ _
    · exact (hb.expr _ _).andThen hp.backwards fun _ => .pure rfl

omit hb in
/-- A program does the same in both runs, if its statements do. -/
theorem program_reruns {schedule schedule'} (hunit : cfg'.unit = cfg.unit) {tree} (htree : V tree)
    (hb : (belowAt cfg schedule cfg.depthLimit).Reruns W V p cfg cfg'
      (belowAt cfg' schedule' cfg'.depthLimit)) :
    Reruns W (Alike p) (program cfg schedule tree) (program cfg' schedule' tree) := by
  unfold program
  split
  · exact (body_reruns hp hb (hp.hereditary.children htree)).map fun _ _ hcs =>
      .withChildren hcs tree
  · rw [hunit]
    exact .after (growing_report _ _) fun _ => .pure rfl

end Rules

end Analysis

end TreeSema
