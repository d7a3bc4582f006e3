import TreeSema.Proofs.Rewrite.Stmt

/-!
# Findings only grow

No step of an analysis takes a finding back, and a node is refused for its depth only with a
finding. So a state without errors comes after states without errors only, and what was reported
once is still there at the end.

* `grows_kept`: growth is kept by whatever a statement does.
* `State.Grows.clean`: states before one without errors have none.
* `growing_stmtAt`, `growing_exprAt`: analysis only adds to what was found.
-/
namespace TreeSema.Analysis

variable {α β : Type}

/-- What a later state has in common with an earlier one. -/
structure State.Grows (s₀ s : State) : Prop where
  findings : s₀.findings <+: s.findings
  depthReported : s₀.depthReported = true → s.depthReported = true
  refused : s.depthReported = true → s₀.depthReported = true ∨
    ∃ f ∈ s.findings, f.cause.severity = .error

/-- Nothing but warnings was reported, and no node was refused. -/
structure State.Clean (s : State) : Prop where
  findings : ∀ f ∈ s.findings, f.cause.severity ≠ .error
  depthReported : s.depthReported = false

namespace State.Grows

theorem refl (s : State) : s.Grows s := ⟨List.prefix_rfl, id, .inl⟩

theorem trans {s₀ s₁ s₂ : State} (h₁ : s₀.Grows s₁) (h₂ : s₁.Grows s₂) : s₀.Grows s₂ where
  findings := h₁.findings.trans h₂.findings
  depthReported := h₂.depthReported ∘ h₁.depthReported
  refused hd := by
    rcases h₂.refused hd with hd | herror
    · rcases h₁.refused hd with hd | ⟨f, hf, herror⟩
      · exact .inl hd
      · exact .inr ⟨f, h₂.findings.subset hf, herror⟩
    · exact .inr herror

/-- More findings, and all else as far as it concerns growth unchanged. -/
theorem append {s₀ s : State} (h : s₀.Grows s) (fs : List Finding) {s' : State}
    (hf : s'.findings = s.findings ++ fs) (hd : s'.depthReported = s.depthReported) :
    s₀.Grows s' := by
  refine h.trans ⟨hf ▸ List.prefix_append _ _, ?_, ?_⟩
  · rw [hd]; exact id
  · rw [hd]; exact .inl

theorem unrefused {s₀ s : State} (h : s₀.Grows s) (hs : s.depthReported = false) :
    s₀.depthReported = false :=
  Bool.eq_false_iff.2 fun hd => Bool.false_ne_true (hs.symm.trans (h.depthReported hd))

/-- States before one without errors have none. -/
theorem clean {s₀ s : State} (h : s₀.Grows s) (hs : s.Clean) : s₀.Clean where
  findings f hf := hs.findings f (h.findings.subset hf)
  depthReported := h.unrefused hs.depthReported

/-- Since the start no node was refused, if there is no error. -/
theorem clean_of_init {s : State} (h : State.Grows {} s)
    (hs : ∀ f ∈ s.findings, f.cause.severity ≠ .error) : s.Clean where
  findings := hs
  depthReported := by
    rcases hd : s.depthReported with _ | _
    · rfl
    · rcases h.refused hd with h | ⟨f, hf, herror⟩
      · cases h
      · exact absurd herror (hs f hf)

end State.Grows

theorem clean_init : State.Clean {} := ⟨by simp, rfl⟩

/-- Growth is kept by whatever a statement does. -/
theorem grows_kept (s₀ : State) : Kept (fun _ => True) s₀.Grows where
  report f hs := hs.append [f] rfl rfl
  refuse loc limit hs := hs.trans
    ⟨List.prefix_append _ _, fun _ => rfl, fun _ => .inr ⟨⟨loc, .tooDeep limit⟩, by simp, rfl⟩⟩
  value _ hs := hs.append [] (List.append_nil _).symm rfl
  insert _ hs := hs.append [] (List.append_nil _).symm rfl
  module _ _ _ hs := hs.append _ rfl rfl
  enter _ hs := hs.append [] (List.append_nil _).symm rfl
  exit hs := hs.append [] (List.append_nil _).symm rfl
  frame _ _ hs := hs.append [] (List.append_nil _).symm rfl

/-! ## Steps that add to the findings -/

/-- A step only adds to what was found. -/
def Growing (m : Analysis α) : Prop := ∀ s : State, s.Grows (m s).2

namespace Growing

theorem pure (a : α) : Growing (Pure.pure a) := fun s => .refl s

theorem bind {m} {f : α → Analysis β} (hm : Growing m) (hf : ∀ a, Growing (f a)) :
    Growing (m >>= f) := fun s => (hm s).trans (hf _ _)

theorem of_ensures {m} {P : α → Prop} (h : ∀ s₀ : State, Ensures s₀.Grows m P) :
    Growing m := fun s => (h s s (.refl s)).1

end Growing

theorem growing_symbols : Growing symbols := fun s => .refl s

theorem growing_get : Growing (get : Analysis State) := fun s => .refl s

theorem growing_report (loc : Location) (cause : Cause) : Growing (report loc cause) :=
  fun s => (State.Grows.refl s).append [⟨loc, cause⟩] rfl rfl

theorem growing_modifyTable (f : Symbols → Symbols) : Growing (modifyTable f) :=
  fun s => (State.Grows.refl s).append [] (List.append_nil _).symm rfl

theorem growing_modifyReturns (f : State → List Ty) :
    Growing (modify fun s => { s with returns := f s } : Analysis Unit) :=
  fun s => (State.Grows.refl s).append [] (List.append_nil _).symm rfl

theorem Growing.inScope {step : Analysis α} (h : Growing step) (context : Context) :
    Growing (inScope context step) :=
  (growing_modifyTable _).bind fun _ => h.bind fun _ =>
    (growing_modifyTable _).bind fun _ => .pure _

theorem Growing.returning {step : Analysis α} (h : Growing step) (result : Ty) :
    Growing (returning result step) :=
  (growing_modifyReturns _).bind fun _ => h.bind fun _ =>
    (growing_modifyReturns _).bind fun _ => .pure _

theorem growing_refuse (cfg : Config) (loc : Location) : Growing (refuse cfg loc) :=
  .of_ensures fun s₀ => (grows_kept s₀).refuse_ensures cfg loc

theorem growing_exprAt (cfg : Config) (k : Nat) (n : Node) (expected : Ty) :
    Growing (exprAt cfg k n expected) :=
  .of_ensures fun s₀ => exprAt_relates (grows_kept s₀).toStable (trivial_rewriting _) cfg k n _

section Levels

variable (cfg : Config) (schedule : Schedule)

/-- Nothing need be known of the runs over the bodies of modules. -/
theorem trivial_kept : Kept (fun _ => True) fun _ => True where
  report _ _ := trivial
  refuse _ _ _ := trivial
  value _ _ := trivial
  insert _ _ := trivial
  module _ _ _ _ := trivial
  enter _ _ := trivial
  exit _ := trivial
  frame _ _ _ := trivial

/-- Analysis of nodes below only adds to what was found. -/
theorem belowAt_grows (s₀ : State) (k : Nat) :
    (belowAt cfg schedule k).Relates (fun _ => True) s₀.Grows fun _ _ => True :=
  belowAt_relates cfg schedule trivial_kept trivial (trivial_rewriting _) (grows_kept s₀)
    (trivial_rewriting _) k

theorem growing_program (tree : Node) : Growing (program cfg schedule tree) := by
  unfold program
  split
  · exact .bind (.of_ensures fun s₀ => body_relates cfg (grows_kept s₀)
      (belowAt_grows cfg schedule s₀ _) tree.children) fun _ => .pure _
  · exact (growing_report _ _).bind fun _ => .pure _

/-! ## Outcomes -/

/-- The outcome of an analysis is read off the state in which it ends. -/
theorem analyzeBy_eq (tree : Node) : tree.analyzeBy schedule cfg =
    ⟨(program cfg schedule tree {}).2.table, (program cfg schedule tree {}).1,
      Diagnostics.sort ((program cfg schedule tree {}).2.findings.map Finding.toDiagnostic)⟩ := rfl

theorem mem_diagnostics {tree : Node} {d} :
    d ∈ (tree.analyzeBy schedule cfg).diagnostics ↔
      ∃ f ∈ (program cfg schedule tree {}).2.findings, f.toDiagnostic = d := by
  rw [analyzeBy_eq, Diagnostics.sort, List.mem_mergeSort, List.mem_map]

/-- An analysis that reports no error ends in a clean state. -/
theorem clean_of_hasErrors {tree : Node}
    (h : (tree.analyzeBy schedule cfg).diagnostics.hasErrors = false) :
    (program cfg schedule tree {}).2.Clean := by
  refine (growing_program cfg schedule tree {}).clean_of_init fun f hf herror => ?_
  have hmem := (mem_diagnostics cfg schedule).2 ⟨f, hf, rfl⟩
  simpa [Finding.toDiagnostic, Diagnostic.report, herror] using List.any_eq_false.1 h _ hmem

/-- An analysis that ends in a clean state reports no error. -/
theorem hasErrors_of_clean {tree : Node} (h : (program cfg schedule tree {}).2.Clean) :
    (tree.analyzeBy schedule cfg).diagnostics.hasErrors = false := by
  refine List.any_eq_false.2 fun d hd => ?_
  obtain ⟨f, hf, rfl⟩ := (mem_diagnostics cfg schedule).1 hd
  simpa [Finding.toDiagnostic, Diagnostic.report] using h.findings f hf

end Levels

end TreeSema.Analysis
