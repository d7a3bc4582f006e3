import TreeSema.Proofs.Rewrite.Expr

/-!
# Verdicts and findings

A rule says twice whether it accepts what it is given: by its result and by what it reports.
`Concludes before m ok` follows both through a step. If what was found so far fits the verdict
`before`, then what was found after the step fits the verdict `ok` on its result. A rule that gives
up goes on with a bad verdict and may only end with one, so that an early return with the wrong
result, or without a report, does not fit.

* `State.Finds`: what was found between two states fits a verdict.
* `finds_judging`: it does so through all that expressions do to a state.
* `exprAt_concludes`: analysis of expressions reports an error just when it rejects, at every level.
-/
namespace TreeSema.Analysis

variable {α : Type}

/-- What was found between two states fits a verdict. If it is good, nothing but warnings was found,
and no node was refused. If it is bad, there is an error among what was found, unless a node had
been refused already. -/
inductive State.Finds (s : State) : Bool → State → Prop
  | good {fs} {s' : State} (findings : s'.findings = s.findings ++ fs)
      (warnings : ∀ f ∈ fs, f.cause.severity = .warning)
      (refused : s'.depthReported = s.depthReported) : Finds s true s'
  | bad {fs} {s' : State} (findings : s'.findings = s.findings ++ fs)
      (error : (∃ f ∈ fs, f.cause.severity = .error) ∨ s.depthReported = true) : Finds s false s'

namespace State.Finds

variable {s s₁ s₂ : State} {ok : Bool}

theorem refl (s : State) : s.Finds true s := .good (List.append_nil _).symm nofun rfl

/-- Nothing that was found is taken back. -/
theorem exists_findings (h : s.Finds ok s₁) : ∃ fs, s₁.findings = s.findings ++ fs := by
  cases h with
  | good findings _ _ => exact ⟨_, findings⟩
  | bad findings _ => exact ⟨_, findings⟩

/-- After two parts the verdict is good if it is so on both. -/
theorem trans {ok' : Bool} (h : s.Finds ok s₁) (h' : s₁.Finds ok' s₂) : s.Finds (ok && ok') s₂ := by
  cases h with
  | good h₁ hwarnings hrefused =>
    cases h' with
    | good h₂ hwarnings' hrefused' =>
      refine .good (by rw [h₂, h₁, List.append_assoc]) (fun f hf => ?_) (hrefused'.trans hrefused)
      rcases List.mem_append.1 hf with hf | hf
      · exact hwarnings f hf
      · exact hwarnings' f hf
    | bad h₂ herror =>
      refine .bad (by rw [h₂, h₁, List.append_assoc]) ?_
      rcases herror with ⟨f, hf, herror⟩ | herror
      · exact .inl ⟨f, List.mem_append_right _ hf, herror⟩
      · exact .inr (hrefused ▸ herror)
  | bad h₁ herror =>
    obtain ⟨fs, h₂⟩ := h'.exists_findings
    refine .bad (by rw [h₂, h₁, List.append_assoc]) ?_
    rcases herror with ⟨f, hf, herror⟩ | herror
    · exact .inl ⟨f, List.mem_append_left _ hf, herror⟩
    · exact .inr herror

theorem spoil (h : s.Finds ok s₁) (h' : s₁.Finds false s₂) : s.Finds false s₂ := by
  simpa using h.trans h'

end State.Finds

/-! ## Steps -/

/-- A step that is come to with the verdict `before` leaves the verdict `ok` on its result. -/
def Concludes (before : Bool) (m : Analysis α) (ok : α → Bool) : Prop :=
  ∀ s₀ s : State, s₀.Finds before s → s₀.Finds (ok (m s).1) (m s).2

theorem refuse_finds (cfg : Config) (loc : Location) (s : State) :
    s.Finds false (refuse cfg loc s).2 := by
  rcases hd : s.depthReported with _ | _
  · have hfound : (refuse cfg loc s).2.findings
        = s.findings ++ [⟨loc, .tooDeep cfg.depthLimit⟩] := by
      simp [refuse, bind_apply, get_apply, modify_apply, report_apply, hd]
    exact .bad hfound (.inl ⟨_, .head _, rfl⟩)
  · have hfound : (refuse cfg loc s).2.findings = s.findings ++ [] := by
      simp [refuse, bind_apply, get_apply, pure_apply, hd]
    exact .bad hfound (.inr hd)

/-- What was found since a state fits the verdict throughout. A variable that gets a value changes
nothing that was found. -/
theorem finds_judging (s₀ : State) : Judging s₀.Finds where
  fault loc cause hc hs := by
    have herror : cause.severity = .error := by simp_all [Cause.isFault]
    exact hs.spoil (.bad rfl (.inl ⟨_, .head _, herror⟩))
  warning {s ok} loc cause hc hs := by
    have hwarning : s.Finds true { s with findings := s.findings ++ [⟨loc, cause⟩] } :=
      .good rfl (by simpa) rfl
    simpa using hs.trans hwarning
  missing loc hs := hs.spoil (.bad rfl (.inl ⟨_, .head _, rfl⟩))
  refuse cfg loc hs := hs.spoil (refuse_finds cfg loc _)
  value _ hs := by
    cases hs with
    | good findings warnings refused => exact .good findings warnings refused

/-! ## Expressions -/

/-- Analysis of expressions reports an error just when it rejects one. -/
def ExprRule.Concludes (rule : ExprRule) : Prop :=
  ∀ n e, Analysis.Concludes true (rule n e) (·.2.isSome)

/-- Analysis of expressions reports an error just when it rejects one, with any number of levels
left. -/
theorem exprAt_concludes (cfg : Config) (k : Nat) : ExprRule.Concludes (exprAt cfg k) :=
  fun n e s₀ s hs =>
    (exprAt_judges (finds_judging s₀) (trivial_rewriting _) cfg k n e s hs).1

section Parts

variable {below : ExprRule} (hb : ExprRule.Concludes below)

include hb

theorem ExprRule.Concludes.level (s₀ : State) : Level s₀.Finds (fun _ _ => True) below :=
  ⟨finds_judging s₀, trivial_rewriting _, fun n e s hs => ⟨hb n e s₀ s hs, trivial⟩⟩

theorem storedValue_concludes (h : Head) (expected : Ty) (value : Node) :
    Concludes true (storedValue below h expected value) (·.2) := fun s₀ s hs =>
  (((hb.level s₀).storedValue (P := fun _ => True) h expected trivial).judges s hs).1

theorem storeName_concludes (h : Head) (name : Ident) (expected : Ty) (value : Node) :
    Concludes true (storeName below h name expected value) (·.2) := fun s₀ s hs =>
  (((hb.level s₀).storeName (P := fun _ => True) h name expected trivial).judges s hs).1

theorem argument_concludes (path : List Ident) (param : Ty) (arg : Node) :
    Concludes true (argument below path param arg) (·.2) := fun s₀ s hs =>
  (((hb.level s₀).argument (P := fun _ => True) path param trivial).judges s hs).1

end Parts

end TreeSema.Analysis
