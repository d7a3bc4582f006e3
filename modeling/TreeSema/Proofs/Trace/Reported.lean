import TreeSema.Proofs.Trace.Stmt
import TreeSema.Proofs.Verdict

/-!
# Verdicts and findings agree wherever a run gets

A node that is nested too deep is rejected without a finding if that was reported before. In a state
that a run reaches this is so only where the earlier report is among the findings: so whatever is
rejected, there is an error, and it was found while the expression was analysed unless the depth was
exceeded earlier on.

* `State.Told`: a state that remembers a refusal has the report of it.
* `verdict_reported`: an expression is accepted without errors or rejected with one.
-/
namespace TreeSema.Analysis

variable {cfg : Config} {schedule : Schedule} {tree : Node} {s : State}

/-- If a node was refused for its depth, that is among the findings. -/
def State.Told (s : State) : Prop :=
  s.depthReported = true → ∃ loc limit, ⟨loc, .tooDeep limit⟩ ∈ s.findings

theorem State.Told.append {s' : State} (h : s.Told) (fs : List Finding)
    (hfindings : s'.findings = s.findings ++ fs) (hrefused : s'.depthReported = s.depthReported) :
    s'.Told := by
  intro hd
  obtain ⟨loc, limit, hmem⟩ := h (hrefused ▸ hd)
  exact ⟨loc, limit, hfindings ▸ List.mem_append_left _ hmem⟩

theorem told_kept : Kept State.Told State.Told where
  report f hs := hs.append [f] rfl rfl
  refuse loc limit _ := fun _ => ⟨loc, limit, by simp⟩
  value _ hs := hs
  insert _ hs := hs
  module _ _ _ hs := hs.append _ rfl rfl
  enter _ hs := hs
  exit hs := hs
  frame _ _ hs := hs

/-- Wherever a run has got to, no expression is rejected in silence and none is accepted with an
error. If it is accepted, nothing but warnings was found in it. If it is rejected, there is an error
among the findings, and one was found in it unless it was reported earlier that the tree is nested
too deep. -/
theorem verdict_reported (hs : Reached cfg schedule tree s) (k : Nat) (n : Node) (expected : Ty) :
    ∃ found, (exprAt cfg k n expected s).2.findings = s.findings ++ found ∧
      ((exprAt cfg k n expected s).1.2.isSome → ∀ f ∈ found, f.cause.severity = .warning) ∧
      ((exprAt cfg k n expected s).1.2 = none →
        (∃ f ∈ (exprAt cfg k n expected s).2.findings, f.cause.severity = .error) ∧
        ((∃ f ∈ found, f.cause.severity = .error) ∨
          s.depthReported = true ∧ ∃ loc limit, ⟨loc, .tooDeep limit⟩ ∈ s.findings)) := by
  have htold : s.Told := hs.kept told_kept nofun
  have hfinds : s.Finds (exprAt cfg k n expected s).1.2.isSome (exprAt cfg k n expected s).2 :=
    exprAt_concludes cfg k n expected s s (.refl s)
  cases htype : (exprAt cfg k n expected s).1.2 with
  | some type =>
    rw [htype] at hfinds
    cases hfinds with
    | good findings warnings _ => exact ⟨_, findings, fun _ => warnings, nofun⟩
  | none =>
    rw [htype] at hfinds
    cases hfinds with
    | bad findings error =>
      refine ⟨_, findings, nofun, fun _ => ?_⟩
      rw [findings]
      rcases error with ⟨f, hf, herror⟩ | hrefused
      · exact ⟨⟨f, List.mem_append_right _ hf, herror⟩, .inl ⟨f, hf, herror⟩⟩
      · obtain ⟨loc, limit, hmem⟩ := htold hrefused
        exact ⟨⟨_, List.mem_append_left _ hmem, rfl⟩, .inr ⟨hrefused, loc, limit, hmem⟩⟩

/-- The second of two names that are nested too deep is rejected without another finding. -/
theorem verdict_reported_refused :
    let cfg : Config := { maxDepth := 1 }
    let x : Node := .leaf { kind := .ident, loc := {}, name := .name "x" }
    let tree : Node := .ofChildren { kind := .program, loc := {} } [x, x]
    ∃ s, Reached cfg .written tree s ∧ (exprAt cfg 0 x .unknown s).1.2 = none ∧
      (exprAt cfg 0 x .unknown s).2.findings = s.findings ∧
      ∃ f ∈ (exprAt cfg 0 x .unknown s).2.findings, f.cause.severity = .error := by
  intro cfg x tree
  have hreached : Reached cfg .written tree (stmtAt cfg .written 1 none x {}).2 :=
    ⟨1, [x, x], .program rfl, ⟨1, .stmt none x (stmtAt cfg .written 1 none x {}).2⟩,
      List.mem_flatMap.2 ⟨_, .tail _ (.head _), .head _⟩, rfl⟩
  obtain ⟨_, -, -, hrejected⟩ := verdict_reported hreached 0 x .unknown
  exact ⟨_, hreached, rfl, rfl, (hrejected rfl).1⟩

end TreeSema.Analysis
