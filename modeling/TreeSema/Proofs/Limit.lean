import TreeSema.Proofs.LookAhead
import TreeSema.Proofs.Trace.Reported

/-!
# The depth limit only cuts

Two analyses of one tree with different limits take the same steps until the lower limit is reached,
and where it is, that is reported. So without such a report the higher limit changes nothing, but
for one thing: the findings in a module whose name is taken are dropped, a report of the limit with
them, while what analysis ahead has made of the module stays in the tree.

* `exprAt_deepens`: an expression has the same result with more levels left.
* `belowAt_deepens`: so has a statement, up to what is in modules that are rejected.
* `raised_limit`: the outcome of an analysis under a higher limit.
-/
namespace TreeSema.Analysis

open Node (Alike)

variable {α : Type} {F : Finding → Prop} {R : α → α → Prop}

/-! ## Steps under two limits -/

/-- No node was refused for its depth, and all findings are in `F`. -/
structure State.Within (F : Finding → Prop) (s : State) : Prop where
  findings : ∀ f ∈ s.findings, F f
  depthReported : s.depthReported = false

theorem State.Grows.within {s₀ s : State} (h : s₀.Grows s) (hs : s.Within F) : s₀.Within F where
  findings f hf := hs.findings f (h.findings.subset hf)
  depthReported := h.unrefused hs.depthReported

/-- Whatever is done where a node is refused under the lower limit. -/
theorem Reruns.refused (cfg : Config) (loc : Location) (a : α) (m' : Analysis α) :
    Reruns (State.Within F) R (do refuse cfg loc; return a) m' := by
  have hrefused : ∀ s, (refuse cfg loc s).2.depthReported = true := by
    intro s
    unfold refuse
    rw [bind_apply, get_apply]
    dsimp only
    split
    · exact ‹_›
    · rfl
  have hcut : ∀ s, ¬ ((do refuse cfg loc; return a : Analysis α) s).2.Within F := fun s hs =>
    Bool.false_ne_true (hs.depthReported.symm.trans (hrefused s))
  exact ⟨(growing_refuse cfg loc).bind fun _ => .pure a, fun s hs => absurd hs (hcut s),
    fun s hs => absurd hs (hcut s)⟩

/-- An expression that is not cut has the same result with more levels left. -/
theorem exprAt_deepens (cfg cfg' : Config) : ∀ {k k' : Nat}, k ≤ k' → ∀ (n : Node) (expected : Ty),
    Reruns (State.Within F) Eq (exprAt cfg k n expected) (exprAt cfg' k' n expected)
  | 0, _, _, n, _ => .refused cfg n.loc _ _
  | k + 1, 0, hk, _, _ => absurd hk (Nat.not_succ_le_zero k)
  | _ + 1, _ + 1, hk, n, expected =>
    have hbelow := exprAt_deepens cfg cfg' (Nat.le_of_succ_le_succ hk)
    (Reruns.respected State.Grows.within).exprStep hbelow
      (Reruns.assignName State.Grows.within hbelow) expected n

/-- The nodes that `p` picks out are the modules that are reported as redefinitions, where modules
are analysed ahead. A report of the depth limit is not in `F`. -/
structure Rejects (F : Finding → Prop) (p : Head → Bool) (cfg cfg' : Config) : Prop where
  jobs : cfg'.looksAhead = cfg.looksAhead
  module : ∀ h : Head, h.kind = .moduleDef → cfg.looksAhead = true →
    F ⟨h.loc, .redefined h.name⟩ → p h = true
  uncut : ∀ loc limit, ¬ F ⟨loc, .tooDeep limit⟩

section Levels

variable {p : Head → Bool} {cfg cfg' : Config} (hp : Rejects F p cfg cfg')
  (schedule schedule' : Schedule)

theorem told_body (cfg : Config) (schedule : Schedule) (k : Nat) (nodes : List Node) :
    (body cfg (belowAt cfg schedule k) nodes {}).2.Told :=
  (body_relates cfg told_kept (belowAt_relates_self cfg schedule told_kept nofun
    (trivial_rewriting _) k) nodes {} nofun).1

include hp

theorem Rejects.comparable :
    Comparable (State.Within F) (fun _ => True) p cfg cfg' where
  backwards := State.Grows.within
  hereditary := hereditary_true
  module {h _ _ _ s} _ hk hkept hs hf := by
    have hcfg : cfg.looksAhead = false := Bool.eq_false_iff.2 fun hcfg =>
      Bool.false_ne_true (hkept.symm.trans (hp.module h hk hcfg (hs.findings _ hf)))
    exact ⟨hcfg, hp.jobs.trans hcfg⟩

/-- The body of a module is within the limit if all that is found in it is in `F`. -/
theorem within_body (k : Nat) {s : State} {nodes} (hs : s.Within F)
    (hsub : ∀ f ∈ (body cfg (belowAt cfg schedule k) nodes {}).2.findings, f ∈ s.findings) :
    (body cfg (belowAt cfg schedule k) nodes {}).2.Within F := by
  refine ⟨fun f hf => hs.findings f (hsub f hf), Bool.eq_false_iff.2 fun hrefused => ?_⟩
  obtain ⟨loc, limit, hmem⟩ := told_body cfg schedule k nodes hrefused
  exact hp.uncut loc limit (hs.findings _ (hsub _ hmem))

/-- A statement that is not cut does the same with more levels left, and so does all in it. -/
theorem belowAt_deepens : ∀ {k k' : Nat}, k ≤ k' →
    (belowAt cfg schedule k).Reruns (State.Within F) (fun _ => True) p cfg cfg'
      (belowAt cfg' schedule' k')
  | 0, _, hk => {
    expr := exprAt_deepens cfg cfg' hk
    stmt := fun _ _ _ => .refused cfg _ _ _
    module := within_body hp schedule 0 }
  | k + 1, 0, hk => absurd hk (Nat.not_succ_le_zero k)
  | k + 1, _ + 1, hk => {
    expr := exprAt_deepens cfg cfg' hk
    stmt := fun hn hs hs' => stmtStep_reruns hp.comparable
      (belowAt_deepens (Nat.le_of_succ_le_succ hk)) hn hs.run hs'.run hs.sequential hs'.sequential
    module := within_body hp schedule (k + 1) }

end Levels

/-! ## Outcomes -/

/-- No diagnostic says that the depth limit is exceeded. -/
def Uncut (ds : Diagnostics) : Prop :=
  ∀ loc limit, (⟨loc, .tooDeep limit⟩ : Finding).toDiagnostic ∉ ds

/-- Is it a module that was rejected as a redefinition and may have been analysed ahead? -/
def rejectedAhead (cfg : Config) (ds : Diagnostics) (h : Head) : Bool :=
  cfg.looksAhead && h.kind == .moduleDef &&
    decide ((⟨h.loc, .redefined h.name⟩ : Finding).toDiagnostic ∈ ds)

section Outcomes

variable {cfg : Config} {limit : Int} {tree : Node}

/-- Where the limit is not reported, no node was refused. -/
theorem within_program (schedule : Schedule)
    (huncut : Uncut (tree.analyzeBy schedule cfg).diagnostics) :
    (program cfg schedule tree {}).2.Within
      fun f => f.toDiagnostic ∈ (tree.analyzeBy schedule cfg).diagnostics := by
  have hfindings : ∀ f ∈ (program cfg schedule tree {}).2.findings,
      f.toDiagnostic ∈ (tree.analyzeBy schedule cfg).diagnostics :=
    fun f hf => (mem_diagnostics cfg schedule).2 ⟨f, hf, rfl⟩
  refine ⟨hfindings, Bool.eq_false_iff.2 fun hrefused => ?_⟩
  have htold : (program cfg schedule tree {}).2.Told :=
    (program_relates cfg schedule told_kept nofun (trivial_rewriting _) tree {} nofun).1
  obtain ⟨loc, limit, hmem⟩ := htold hrefused
  exact huncut loc limit (hfindings _ hmem)

/-- If the lower limit is not reported, the higher gives the same diagnostics and table, and the
same tree up to what is in rejected modules. -/
theorem analyzeBy_deepens {schedule} (schedule' : Schedule)
    (hlimit : cfg.depthLimit ≤ Config.depthLimit { cfg with maxDepth := limit })
    (huncut : Uncut (tree.analyzeBy schedule cfg).diagnostics) :
    let lower := tree.analyzeBy schedule cfg
    let higher := tree.analyzeBy schedule' { cfg with maxDepth := limit }
    higher.diagnostics = lower.diagnostics ∧ higher.table = lower.table ∧
      lower.tree.Alike (rejectedAhead cfg lower.diagnostics) higher.tree := by
  intro lower higher
  have hrejects : Rejects (fun f => f.toDiagnostic ∈ lower.diagnostics)
      (rejectedAhead cfg lower.diagnostics) cfg { cfg with maxDepth := limit } :=
    ⟨rfl, fun h hkind hcfg hmem => by simp [rejectedAhead, hkind, hcfg, hmem], huncut⟩
  have hprogram : Reruns _ (Alike _) (program cfg schedule tree)
      (program { cfg with maxDepth := limit } schedule' tree) :=
    program_reruns hrejects.comparable rfl trivial
      (belowAt_deepens hrejects schedule schedule' hlimit)
  have hwithin := within_program schedule huncut
  have hstate := hprogram.state {} hwithin
  refine ⟨?_, ?_, hprogram.result {} hwithin⟩
  · exact congrArg (fun s : State => Diagnostics.sort (s.findings.map Finding.toDiagnostic)) hstate
  · exact congrArg State.table hstate

/-- Where no module is analysed ahead, the trees are the same. -/
theorem tree_eq_of_sequential {schedule} (schedule' : Schedule) (hcfg : cfg.looksAhead = false)
    (hlimit : cfg.depthLimit ≤ Config.depthLimit { cfg with maxDepth := limit })
    (huncut : Uncut (tree.analyzeBy schedule cfg).diagnostics) :
    (tree.analyzeBy schedule' { cfg with maxDepth := limit }).tree
      = (tree.analyzeBy schedule cfg).tree := by
  have hnone : ∀ ds, rejectedAhead cfg ds = fun _ => false := fun ds =>
    funext fun h => by rw [rejectedAhead, hcfg]; rfl
  obtain ⟨-, -, htree⟩ := analyzeBy_deepens schedule' hlimit huncut
  rw [hnone, Alike, Node.emptied_none, Node.emptied_none] at htree
  exact htree.symm

/-- Without a rejected module the outcome is that of an analysis with one job. -/
theorem analyzeBy_one_job {schedule}
    (hnone : NoModuleRedefined tree (tree.analyzeBy schedule cfg).diagnostics) :
    tree.analyzeBy schedule cfg = tree.analyze { cfg with jobs := 1 } := by
  have hwatched : Watched
      (fun f => f.toDiagnostic ∉ (tree.analyzeBy schedule cfg).diagnostics) tree := hnone
  have hagrees := program_agrees cfg schedule hwatched
  have htree := hagrees.result {} fun f hf hnot =>
    hnot ((mem_diagnostics cfg schedule).2 ⟨f, hf, rfl⟩)
  rw [Node.analyze, analyzeBy_eq, analyzeBy_eq, hagrees.state, htree]

/-- The depth limit and a redefinition are reported by different texts. -/
theorem tooDeep_ne_redefined {loc loc'} {limit : Nat} {name} :
    (⟨loc, .tooDeep limit⟩ : Finding).toDiagnostic
      ≠ (⟨loc', .redefined name⟩ : Finding).toDiagnostic := by
  intro h
  have htext : Severity.error.tag ++ ("nesting exceeds the maximum depth of " ++ toString limit)
      = Severity.error.tag ++ ("'" ++ name.text ++ "' is defined multiple times") :=
    congrArg Diagnostic.text h
  have hfirst := congrArg (·.toList.head?) ((String.append_right_inj _).1 htext)
  simp [String.toList_append] at hfirst

/-- A module, and another of its name with a literal in it. -/
def repeatedModule : Node :=
  let at_ (line : Nat) : Location := { unit := "m", line }
  .ofChildren { kind := .program, loc := at_ 1 } [
    .ofChildren { kind := .moduleDef, loc := at_ 2, name := .name "m" } [],
    .ofChildren { kind := .moduleDef, loc := at_ 3, name := .name "m" } [
      .leaf { kind := .structDef, loc := at_ 4, name := .name "S" },
      .ofChildren { kind := .varDef, loc := at_ 5, name := .name "x", type := .custom [.name "S"] }
        [.leaf { kind := .lit, loc := at_ 6, name := .name "S" }]]]

end Outcomes

end TreeSema.Analysis
