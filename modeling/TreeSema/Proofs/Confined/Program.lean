import TreeSema.Proofs.Confined.Expr

/-!
# Unsafe operations are confined

Analysis keeps the safety of the text around in the scopes of its table: a scope is opened with a
safety of its own or with that of the scope around it, conditionals open none, and modules have a
table of their own. What it allows that way is what the text around allows, so that in a program
without errors every unsafe operation stands in an unsafe block or an unsafe function of its module.

* `functionStart_safety`: the safety in which the body of a function starts.
* `Performs.confined`: a statement is confined, if those below are.
* `analyzeBy_confined`: in a program without errors all unsafe operations are allowed by the text
  around them.
-/
namespace TreeSema.Analysis

open Node

variable {cfg : Config}

/-! ## Scopes -/

/-- The safety of a scope that is opened. -/
theorem enter_safety (t : Symbols) (context : Context) : (t.enter context).context.safety =
    if context.safety = .inherited then t.context.safety else context.safety := rfl

/-- Statements leave the scope in which they stand open. -/
theorem State.Leads.safety {s s' : State} (h : s.Leads s') :
    s'.table.context.safety = s.table.context.safety :=
  congrArg Context.safety (Table.context_of_contexts h.contexts)

/-- The body of a function starts with the safety of the function, or with that around it. -/
theorem functionStart_safety {s : State} {h : Head} (hk : h.kind = .funcDef)
    (hfree : s.table.lookup h.name = none) (hs : s.table.Sound) :
    (functionStart h s).table.context.safety =
      if h.isUnsafe then .unsafely else s.table.context.safety := by
  obtain ⟨s₁, ht, hr⟩ := declareFunction_registers hfree hk (functionFlags h .plain)
  have hsound := hr.sound (hs.touched ht.table)
  have hdeclared := ((ht.leads hs).trans hr.leads).safety
  have hbound : (functionStart h s).table.context.safety = _ := (bindFormals_ends
    (trivial_carried {}) _ ⟨hsound.enter (functionContext h), trivial⟩ rfl).leads.safety
  refine hbound.trans ?_
  rw [enter_safety, hdeclared, functionContext]
  cases h.isUnsafe <;> rfl

/-! ## Statements -/

section Statements

variable {k : Nat} {inside : Bool} {s s' : State}
  (hS : ∀ {inside : Bool} {s : State} {n n' : Node} {s' : State},
    (belowAt cfg .written k).Gives s n n' s' → s.table.Sound →
    (s.table.context.safety = .unsafely → inside = true) → n.Source →
    ConfinedStmt cfg k inside s n)
  (hs : s.table.Sound) (hinside : s.table.context.safety = .unsafely → inside = true)

variable {n n' : Node} {ns ns' : List Node}

theorem Below.Gives.ends (hn : (belowAt cfg .written k).Gives s n n' s')
    (hs : s.table.Sound) : s'.table.Sound ∧ s.Leads s' := by
  have hahead : AheadOf (belowAt cfg .written k) (none, n) := nofun
  have hend := (belowAt_sound cfg .written k).stmt trivial hahead ⟨hs, trivial⟩
  have hsound := hend.fit.sound
  have hleads := hend.leads
  rw [hn.run] at hsound hleads
  exact ⟨hsound, hleads⟩

/-! What is accepted is what a run makes. -/

theorem OfType.run {type} (h : OfType (exprAt cfg k).Gives type s n n' s') :
    exprOf (exprAt cfg k) type n s = ((n', true), s') := by
  obtain ⟨actual, h, hc⟩ := h
  have haccepts : accepts type actual n'.loc s' = (true, s') := by
    simp [accepts, bind_apply, symbols_apply, pure_apply, hc]
  rw [exprOf, bind_apply, h.run]
  simp only [bind_apply, haccepts]
  rfl

/-- A condition leaves the scope in which it stands open. -/
theorem OfType.after (hs : s.table.Sound)
    (h : OfType (exprAt cfg k).Gives (.basic .bool) s n n' s') :
    s'.table.Sound ∧ s'.table.context.safety = s.table.context.safety := by
  have hend := condition_sound cfg k n hs
  have hsound := hend.fit.sound
  have hsafety := hend.leads.safety
  rw [h.run] at hsound hsafety
  exact ⟨hsound, hsafety⟩

theorem Statements.run (h : Statements (belowAt cfg .written k).Gives s ns ns' s') :
    statements (belowAt cfg .written k) (ns.map fun n => (none, n)) s = (ns', s') := by
  induction h with
  | nil => rfl
  | @cons s s₁ s₂ n n' rest rest' hn _ ih =>
    have hrun : (belowAt cfg .written k).stmt none n s = (n', s₁) := hn.run
    rw [List.map_cons, statements, bind_apply, hrun, bind_apply, ih]
    rfl

theorem BodyOf.run (hcfg : cfg.looksAhead = false)
    (h : BodyOf (belowAt cfg .written k).Gives s ns ns' s') :
    body cfg (belowAt cfg .written k) ns s = (ns', s') := by
  obtain ⟨s₁, h, hsettled⟩ := h
  have hahead : lookAhead cfg (belowAt cfg .written k) ns = ns.map fun n => (none, n) := by
    simp [lookAhead, hcfg]
  rw [body, bind_apply, get_apply, hahead, bind_apply, h.run, bind_apply, hsettled.run]
  rfl

theorem Branch.run (hcfg : cfg.looksAhead = false)
    (h : Branch (belowAt cfg .written k).Gives s n n' s') :
    branch cfg (belowAt cfg .written k) n s = (n', s') := by
  cases h with
  | block hk hbody =>
    rw [branch, if_pos (by rw [kind?, hk]), bind_apply, children, hbody.run hcfg]
    rfl
  | single hk hn =>
    rw [branch, if_neg hk]
    exact hn.run

include hS hs hinside

theorem Statements.confined
    (h : Statements (belowAt cfg .written k).Gives s ns ns' s') (hns : ∀ n ∈ ns, n.Source) :
    ConfinedBody cfg k inside s ns := by
  induction h with
  | nil => exact .nil
  | @cons s s₁ _ n _ rest _ hn _ ih =>
    obtain ⟨hsource, hrest⟩ := List.forall_mem_cons.1 hns
    obtain ⟨hs₁, hleads⟩ := Below.Gives.ends hn hs
    have hstate : (stmtAt cfg .written k none n s).2 = s₁ := congrArg Prod.snd hn.run
    refine .cons (hS hn hs hinside hsource) ?_
    rw [hstate]
    exact ih hs₁ (fun hsafe => hinside (hleads.safety ▸ hsafe)) hrest

theorem BodyOf.confined (h : BodyOf (belowAt cfg .written k).Gives s ns ns' s')
    (hns : ∀ n ∈ ns, n.Source) : ConfinedBody cfg k inside s ns := by
  obtain ⟨_, h, -⟩ := h
  exact h.confined hS hs hinside hns

/-- A body in a scope with the safety of the scope around it. -/
theorem BodyOf.confined_inherited {context : Context} (hcontext : context.safety = .inherited)
    (h : BodyOf (belowAt cfg .written k).Gives { s with table := s.table.enter context } ns ns' s')
    (hns : ∀ n ∈ ns, n.Source) :
    ConfinedBody cfg k inside { s with table := s.table.enter context } ns := by
  refine h.confined hS (hs.enter context) (fun hsafe => ?_) hns
  rw [enter_safety, if_pos hcontext] at hsafe
  exact hinside hsafe

theorem Branches.confined (hcfg : cfg.looksAhead = false)
    (h : Branches (belowAt cfg .written k).Gives s ns ns' s') (hns : ∀ n ∈ ns, n.Source) :
    ConfinedBranches cfg k inside s ns := by
  induction h with
  | nil => exact .nil
  | @cons s s₁ s₂ n n' rest rest' hn _ ih =>
    obtain ⟨hsource, hrest⟩ := List.forall_mem_cons.1 hns
    have hend := branch_ends (trivial_carried cfg) (belowAt_sound cfg .written k) (n := n) trivial
      ⟨hs, trivial⟩
    have hfit := hend.fit.sound
    have hsafety := hend.leads.safety
    have hrest : ConfinedBranches cfg k inside (branch cfg (belowAt cfg .written k) n s).2 rest := by
      rw [hn.run hcfg] at hfit hsafety ⊢
      exact ih hfit (fun hsafe => hinside (hsafety ▸ hsafe)) hrest
    cases hn with
    | block hk hbody =>
      exact .block (by rw [kind?, hk]) (hbody.confined hS hs hinside hsource.children) hrest
    | single hk hn => exact .single hk (hS hn hs hinside hsource) hrest

/-- The body of a loop has the safety of the text around it. -/
theorem LoopBody.confined
    (h : LoopBody (belowAt cfg .written k).Gives s [n] ns' s') (hn : n.Source) :
    ConfinedBody cfg k inside { s with table := s.table.enter (loopContext s) } (loopNodes n) := by
  cases h with
  | block hk h =>
    obtain ⟨_, h, -⟩ := h
    rw [loopNodes, if_pos (by rw [kind?, hk])]
    exact h.confined_inherited hS hs hinside rfl hn.children
  | single hk h =>
    obtain ⟨_, h, -⟩ := h
    rw [loopNodes, if_neg hk]
    exact h.confined_inherited hS hs hinside rfl (by simpa using hn)

omit hS hs in
/-- The initializer of a variable is analysed with the variable in the table, if its type is
written. -/
theorem Initializer.confined {h storage} {cs cs' : List Node}
    (hinit : Initializer (exprAt cfg k).Gives h storage s cs cs' s') (hlen : cs.length ≤ 1)
    (hcs : ∀ c ∈ cs, c.Source) :
    ∀ c ∈ cs, (initTable h storage s.table).Confines inside .read c := by
  have hsafety : (initTable h storage s.table).context.safety = s.table.context.safety := by
    unfold initTable
    split
    · rfl
    · exact congrArg Context.safety (Table.context_of_contexts (Table.contexts_insert _ _))
  have hexpr : (exprAt cfg k).Gives.Confined (initTable h storage s.table) inside :=
    exprAt_confined cfg (fun hsafe => hinside (hsafety ▸ hsafe)) k
  cases hinit with
  | inferred hunknown hinit =>
    obtain rfl : _ = [] := by simpa using hlen
    refine List.forall_mem_singleton.2 (hexpr hinit ?_ (hcs _ (by simp)))
    rw [initTable, if_pos hunknown]
    exact .refl _
  | none => exact nofun
  | declared hknown htype hinit =>
    obtain rfl : _ = [] := by simpa using hlen
    have hchecked : s.Marks _ := (checkType_ensures (marks_stable s) h.loc h.type s (.refl s)).1
    rw [htype.run] at hchecked
    refine List.forall_mem_singleton.2 (hinit.confined hexpr ?_ (hcs _ (by simp)))
    rw [initTable, if_neg (by simp [hknown])]
    exact hchecked.table.insert (.refl _)

omit hS hs hinside in
/-- A statement that only declares something has no unsafe operation in it. -/
theorem Declares.confined {h cs fs b step} (hstep : Declares h cs fs step)
    (hrun : CleanRun step s () s') (hn : (Node.mk h cs fs b).Source) :
    ConfinedStmt cfg (k + 1) inside s (.mk h cs fs b) := by
  cases hstep with
  | record hk =>
    obtain ⟨rfl, hfs, rfl⟩ := (every_mk.1 hn).1.shaped.record hk
    exact .plain (by rcases hk with hk | hk <;> rw [hk] <;> rfl) hfs
  | enum hk | variant hk | aliasType hk =>
    obtain ⟨rfl, rfl, rfl⟩ := hn.leaf (hk ▸ rfl)
    exact .plain (by rw [hk]; rfl) (List.forall_mem_nil _)
  | foreign hk =>
    obtain ⟨rfl, rfl⟩ := hn.parts (hk ▸ rfl)
    exact .foreign hk ((externItems_passes cs).of_run hrun)
  | jump hk =>
    obtain ⟨rfl, rfl, rfl⟩ := hn.leaf (by rcases hk with hk | hk <;> rw [hk] <;> rfl)
    exact .plain (by rcases hk with hk | hk <;> rw [hk] <;> rfl) (List.forall_mem_nil _)

/-- A statement that is accepted is confined, if those below are. -/
theorem Performs.confined (hcfg : cfg.looksAhead = false)
    (h : Performs (exprAt cfg k).Gives (belowAt cfg .written k).Gives s n n' s') (hn : n.Source) :
    ConfinedStmt cfg (k + 1) inside s n := by
  have hexpr : ∀ {t : Symbols}, t.context.safety = s.table.context.safety →
      (exprAt cfg k).Gives.Confined t inside := fun ht =>
    exprAt_confined cfg (fun hsafe => hinside (ht ▸ hsafe)) k
  cases h with
  | module hk _ hbody =>
    obtain ⟨rfl, rfl⟩ := hn.parts (hk ▸ rfl)
    exact .module hk (hbody.confined hS .empty (fun hsafe => by cases hsafe) hn.children)
  | declaration hstep hrun => exact hstep.confined hrun hn
  | signature hk =>
    obtain ⟨rfl, rfl, -⟩ := (every_mk.1 hn).1.shaped.function hk
    exact .function hk .nil
  | @function s₁ _ h _ _ _ _ _ _ _ _ hk hfree hsig _ hbody =>
    obtain ⟨rfl, rfl, -⟩ := (every_mk.1 hn).1.shaped.function hk
    obtain ⟨_, ⟨s₂, s₃, hbind, hbody, -⟩, -⟩ := hbody
    have hsafety := functionStart_safety hk hfree hs
    have hstart := functionStart_sound hk hfree hs
    have hrun : functionStart h s = { s₂ with returns := h.type :: s₂.returns } := by
      rw [functionStart, hsig.run]
      dsimp only
      rw [hbind.run]
    refine .function hk ?_
    rw [hrun] at hsafety hstart ⊢
    refine hbody.confined hS hstart (fun hsafe => ?_) hn.body.children
    rw [hsafety] at hsafe
    split at hsafe
    · simp [*]
    · simp [hinside hsafe]
  | @«variable» _ h storage cs _ fs b hk _ hinit =>
    have hkind := declarationKind_cases hk
    obtain ⟨rfl, rfl⟩ := hn.parts (by rcases hkind with hk | hk | hk <;> rw [hk] <;> rfl)
    have hlen : cs.length ≤ 1 := by
      rcases hkind with hk | hk | hk <;> simpa only [Head.Takes, hk] using hn.takes
    exact .variable hk (hinit.confined hinside hlen hn.children)
  | block hk hbody =>
    obtain ⟨_, hbody, -⟩ := hbody
    rcases hk with ⟨hk, rfl⟩ | ⟨hk, rfl⟩
    · obtain ⟨rfl, rfl⟩ := hn.parts (hk ▸ rfl)
      exact .block hk (hbody.confined_inherited hS hs hinside rfl hn.children)
    · obtain ⟨rfl, rfl⟩ := hn.parts (hk ▸ rfl)
      exact .unsafeBlock hk (hbody.confined hS (hs.enter _) (fun _ => rfl) hn.children)
  | conditional hk hcondition hrest =>
    obtain ⟨rfl, rfl⟩ := hn.parts (hk ▸ rfl)
    refine .conditional hk (hcondition.confined (hexpr rfl) (.refl _) hn.first) ?_
    obtain ⟨hsound, hsafety⟩ := hcondition.after hs
    rw [hcondition.run]
    exact hrest.confined hS hsound (fun hsafe => hinside (hsafety ▸ hsafe)) hcfg fun c hc =>
      hn.children c (List.mem_cons_of_mem _ hc)
  | @whileLoop _ _ _ _ _ rest _ _ _ hk hcondition hrest =>
    obtain ⟨hlen, rfl, rfl⟩ := (every_mk.1 hn).1.shaped.fixed 2 (hk ▸ rfl)
    obtain ⟨n, rfl⟩ := List.length_eq_one_iff.1 (Nat.succ.inj hlen)
    refine .whileLoop hk (hcondition.confined (hexpr rfl) (.refl _) hn.first) rfl ?_
    obtain ⟨hsound, hsafety⟩ := hcondition.after hs
    rw [hcondition.run]
    exact hrest.confined hS hsound (fun hsafe => hinside (hsafety ▸ hsafe)) hn.second
  | @loop _ _ cs _ _ _ hk _ hcs =>
    obtain ⟨hlen, rfl, rfl⟩ := (every_mk.1 hn).1.shaped.fixed 1 (hk ▸ rfl)
    obtain ⟨n, rfl⟩ := List.length_eq_one_iff.1 hlen
    exact .loop hk (hcs.confined hS hs hinside hn.first)
  | returned hk hcs =>
    obtain ⟨rfl, rfl⟩ := hn.parts (hk ▸ rfl)
    refine .returned hk fun c hc => ?_
    cases hcs with
    | nothing => cases hc
    | value _ _ hvalue =>
      obtain rfl : _ = [] := by simpa [Head.Takes, TreeReader.takes, hk] using hn.takes
      obtain rfl := List.mem_singleton.1 hc
      exact hvalue.confined (hexpr rfl) (.refl _) hn.first
  | assignment hk hcs =>
    exact .expression (hcs.confined (exprAt_typed cfg k) (hexpr rfl) hinside (.refl _) hk hn)
  | expression _ h => exact .expression (hexpr rfl h (.refl _) hn)

end Statements

/-- A statement that is analysed without errors is confined to what its scope allows. -/
theorem stmtAt_confined (hcfg : cfg.looksAhead = false) : ∀ (k : Nat) {inside : Bool} {s s' : State}
    {n n' : Node}, (belowAt cfg .written k).Gives s n n' s' → s.table.Sound →
    (s.table.context.safety = .unsafely → inside = true) → n.Source → ConfinedStmt cfg k inside s n
  | 0, _, _, _, n, _, h, _, _, _ => (((belowAt_elaborates .written hcfg 0).stmt n).of_run h).elim
  | k + 1, _, _, _, n, _, h, hs, hinside, hn =>
    have hperforms := (stmtStep_passes hcfg (belowAt_honest .written hcfg k) n).of_run h
    hperforms.confined (stmtAt_confined hcfg k) hs hinside hcfg hn

/-- A literal of a union, a field of it that is read and one that is written, and a call. -/
def unionUses : String :=
  "(program (union U (field i i32))
    (fn ^\x7bunsafe: true\x7d raw (params (u U)) i32 (block (return (dot u i))))
    (fn main (params) () (block (unsafe (block (var mut u U (lit U \x7bi: 1\x7d))
      (assign = (dot u i) 2) (call raw u))))))"

end TreeSema.Analysis
