import TreeSema.Analysis.Program
import Mathlib.Data.List.Forall2

/-!
# Steps of an analysis

A step is a function from a state to a result and the state after it. `Ensures I m P` says of a
step that it keeps a property of states and what its result is like. The property is a parameter
throughout: what holds of the state at the start and is kept by every elementary change is kept by
every step that is made of them, so that growth of the findings, agreement of tables and invariants
of tables are all instances of the same statements.

A rule also says by its result whether it accepts what it is given. `Judges I before m ok P` is
about a property that may depend on this verdict: it is `before` when the step is come to, and `ok`
of the result after it.

* `Ensures.bind`, `Judges.bind`: what is known of two steps in a row.
* `Stable`, `Judging`: the property is kept by the changes that expressions make to a state.
-/
namespace TreeSema

/-- Is it reported that an operand is missing? -/
def Cause.isMissing : Cause → Bool
  | .defect .missingOperand => true
  | _ => false

/-- Is it an error in what a node has, not that it lacks an operand? -/
def Cause.isFault (cause : Cause) : Bool := cause.severity == .error && !cause.isMissing

namespace Analysis

variable {α β : Type} {I : State → Prop}

/-! ## Runs -/

theorem bind_apply (m : Analysis α) (f : α → Analysis β) (s : State) :
    (m >>= f) s = f (m s).1 (m s).2 := rfl

theorem pure_apply (a : α) (s : State) : (pure a : Analysis α) s = (a, s) := rfl

theorem symbols_apply (s : State) : symbols s = (s.table, s) := rfl

theorem get_apply (s : State) : (get : Analysis State) s = (s, s) := rfl

theorem report_apply (loc : Location) (cause : Cause) (s : State) :
    report loc cause s = ((), { s with findings := s.findings ++ [⟨loc, cause⟩] }) := rfl

theorem modify_apply (f : State → State) (s : State) :
    (modify f : Analysis Unit) s = ((), f s) := rfl

/-- A name is free, or it is reported. -/
theorem redefined_run (name : Ident) (loc : Location) (s : State) :
    (s.table.lookup name = none ∧ redefined name loc s = (false, s)) ∨
      ∃ e, s.table.lookup name = some e ∧ redefined name loc s
        = (true, { s with findings := s.findings ++ [⟨loc, .redefined name⟩] }) := by
  unfold redefined
  rw [bind_apply, symbols_apply]
  rcases s.table.lookup name with _ | e
  · exact .inl ⟨rfl, rfl⟩
  · exact .inr ⟨e, rfl, rfl⟩

theorem redefined_free {name loc} {s : State} (hfree : s.table.lookup name = none) :
    redefined name loc s = (false, s) := by
  rcases redefined_run name loc s with ⟨-, hrun⟩ | ⟨e, he, -⟩
  · exact hrun
  · rw [hfree] at he
    cases he

theorem settleDeclared_state (mark : Nat) (s : State) : (settleDeclared mark s).2
    = { (checkAll (s.declared.drop mark) s).2 with
      declared := (checkAll (s.declared.drop mark) s).2.declared.take mark } := rfl

/-- At the end of a body the types that were declared in it are looked up. -/
theorem body_state (cfg : Config) (below : Below) (nodes : List Node) (s : State) :
    (body cfg below nodes s).2 = (settleDeclared s.declared.length
      (statements below (lookAhead cfg below nodes) s).2).2 := rfl

/-- A run over the body of a module starts with nothing. -/
theorem ofBody_eq (cfg : Config) (below : Below) (nodes : List Node) :
    ModuleRun.ofBody cfg below nodes = ⟨(body cfg below nodes {}).1,
      (body cfg below nodes {}).2.table, (body cfg below nodes {}).2.findings⟩ := rfl

/-! The attribute of a function that is defined elsewhere. -/

theorem functionFlags_plain (h : Head) : (functionFlags h .plain).has .foreignFn = false := by
  unfold functionFlags
  cases h.isUnsafe <;> cases h.variadic <;> rfl

theorem functionFlags_foreign (h : Head) : (functionFlags h .foreignFn).has .foreignFn = true := by
  unfold functionFlags
  cases h.isUnsafe <;> cases h.variadic <;> rfl

section Module

variable {cfg : Config} {below : Below} {h : Head} {run : Option ModuleRun} {cs : List Node}
  {s s' : State}

/-- A module whose name is taken is put aside. -/
theorem moduleDecl_taken (ht : redefined h.name h.loc s = (true, s')) :
    moduleDecl cfg below h run cs s = (run.elim cs (·.nodes), s') := by
  unfold moduleDecl
  rw [bind_apply, ht]
  cases run <;> rfl

/-- A module whose name is free is put into the table, with the findings in it. -/
theorem moduleDecl_free (hf : redefined h.name h.loc s = (false, s')) :
    moduleDecl cfg below h run cs s =
      let r := run.getD (ModuleRun.ofBody cfg below cs)
      (r.nodes, { s' with
        findings := s'.findings ++ r.findings
        table := s'.table.insert (.definition h.name (.moduleDef (some (.table r.table))) h.loc) }) := by
  unfold moduleDecl
  rw [bind_apply, hf]
  cases run <;> rfl

end Module

/-- What speaks against an assignment. -/
theorem assignable_cause {t : Symbols} {op : String} {name v cause}
    (h : t.assignable op name v = .error cause) :
    cause = .immutableRef name ∨ cause = .constMutation name := by
  unfold Symbols.assignable at h
  split at h
  · cases h
  · split at h
    · cases h
    · cases h; exact .inl rfl
    · split at h
      · cases h
      · cases h; exact .inr rfl

/-! ## What a step ensures -/

/-- A step that starts where `I` holds ends where it holds, with a result of which `P` holds. -/
def Ensures (I : State → Prop) (m : Analysis α) (P : α → Prop) : Prop :=
  ∀ s, I s → I (m s).2 ∧ P (m s).1

namespace Ensures

variable {m : Analysis α} {f : α → Analysis β} {P P' : α → Prop} {Q : β → Prop}

theorem pure {a : α} (h : P a) : Ensures I (Pure.pure a) P := fun _ hs => ⟨hs, h⟩

theorem bind (hm : Ensures I m P) (hf : ∀ a, P a → Ensures I (f a) Q) : Ensures I (m >>= f) Q := by
  intro s hs
  obtain ⟨h₁, hP⟩ := hm s hs
  exact hf _ hP _ h₁

theorem mono (hm : Ensures I m P) (h : ∀ a, P a → P' a) : Ensures I m P' :=
  fun s hs => ⟨(hm s hs).1, h _ (hm s hs).2⟩

theorem and (hm : Ensures I m P) (hm' : Ensures I m P') : Ensures I m fun a => P a ∧ P' a :=
  fun s hs => ⟨(hm s hs).1, (hm s hs).2, (hm' s hs).2⟩

/-- A step whose result does not matter. -/
theorem weaken (hm : Ensures I m P) : Ensures I m fun _ => True := hm.mono fun _ _ => trivial

end Ensures

/-- The table that a step sees is that of a state in which `I` holds. -/
theorem symbols_ensures : Ensures I symbols fun t => ∃ s, I s ∧ s.table = t :=
  fun s hs => ⟨hs, s, hs, rfl⟩

theorem get_ensures : Ensures I (get : Analysis State) I := fun _ hs => ⟨hs, hs⟩

/-- The property is kept by what expressions do to a state: report something, refuse a node, mark a
variable as having a value. -/
structure Stable (I : State → Prop) : Prop where
  report : ∀ {s : State} (f : Finding), I s → I { s with findings := s.findings ++ [f] }
  refuse : ∀ {s : State} (loc : Location) (limit : Nat), I s →
    I { s with depthReported := true, findings := s.findings ++ [⟨loc, .tooDeep limit⟩] }
  value : ∀ {s : State} (name : Ident), I s → I { s with table := s.table.modify name .withValue }

namespace Stable

theorem report_ensures (hI : Stable I) (loc : Location) (cause : Cause) :
    Ensures I (Analysis.report loc cause) fun _ => True := fun _ hs => ⟨hI.report _ hs, trivial⟩

theorem refuse_ensures (hI : Stable I) (cfg : Config) (loc : Location) :
    Ensures I (Analysis.refuse cfg loc) fun _ => True := by
  intro s hs
  refine ⟨?_, trivial⟩
  rcases hd : s.depthReported with _ | _
  · have := hI.refuse loc cfg.depthLimit hs
    simpa [Analysis.refuse, bind_apply, get_apply, modify_apply, report_apply, hd] using this
  · simpa [Analysis.refuse, bind_apply, get_apply, pure_apply, hd] using hs

/-- A step that reports something and then gives up. -/
theorem report_pure (hI : Stable I) {P : α → Prop} (loc : Location) (cause : Cause) {a : α}
    (h : P a) : Ensures I (do Analysis.report loc cause; return a) P :=
  (hI.report_ensures loc cause).bind fun _ _ => .pure h

end Stable

/-! ## What a step makes of a verdict -/

/-- A step that starts where `I` holds with the verdict `before` ends where it holds with the verdict
`ok` on the result, of which `P` holds. -/
def Judges (I : Bool → State → Prop) (before : Bool) (m : Analysis α) (ok : α → Bool)
    (P : α → Prop) : Prop :=
  ∀ s, I before s → I (ok (m s).1) (m s).2 ∧ P (m s).1

/-- The property is kept by what checks do to a state: after an error the verdict is bad, and after a
warning it is what it was. -/
structure Reports (I : Bool → State → Prop) : Prop where
  fault : ∀ {s : State} {ok : Bool} (loc : Location) {cause : Cause}, cause.isFault = true → I ok s →
    I false { s with findings := s.findings ++ [⟨loc, cause⟩] }
  warning : ∀ {s : State} {ok : Bool} (loc : Location) {cause : Cause}, cause.severity = .warning →
    I ok s → I ok { s with findings := s.findings ++ [⟨loc, cause⟩] }

/-- The property is kept by what expressions do to a state. -/
structure Judging (I : Bool → State → Prop) : Prop extends Reports I where
  missing : ∀ {s : State} {ok : Bool} (loc : Location), I ok s →
    I false { s with findings := s.findings ++ [⟨loc, .defect .missingOperand⟩] }
  refuse : ∀ {s : State} {ok : Bool} (cfg : Config) (loc : Location), I ok s →
    I false (Analysis.refuse cfg loc s).2
  value : ∀ {s : State} (name : Ident), I true s →
    I true { s with table := s.table.modify name .withValue }

theorem Stable.judging {I : State → Prop} (hI : Stable I) : Judging fun _ => I where
  fault _ _ _ := hI.report _
  warning _ _ _ := hI.report _
  missing _ := hI.report _
  refuse cfg loc hs := (hI.refuse_ensures cfg loc _ hs).1
  value := hI.value

theorem Stable.reports {I : State → Prop} (hI : Stable I) : Reports fun _ => I :=
  hI.judging.toReports

theorem Reports.report_ensures {I : State → Prop} (hI : Reports fun _ => I) (loc : Location)
    {cause : Cause} (hc : cause.isFault = true) :
    Ensures I (report loc cause) fun _ => True := fun _ hs =>
  ⟨@Reports.fault _ hI _ true loc _ hc hs, trivial⟩

section Verdict

variable {I : Bool → State → Prop} {before : Bool} {m : Analysis α} {f : α → Analysis β}
  {ok : α → Bool} {ok' : β → Bool} {P : α → Prop} {Q : β → Prop}

namespace Judges

theorem pure {a : α} (ha : ok a = before) (h : P a) : Judges I before (Pure.pure a) ok P :=
  fun _ hs => ⟨ha.symm ▸ hs, h⟩

theorem bind (hm : Judges I before m ok P) (hf : ∀ a, P a → Judges I (ok a) (f a) ok' Q) :
    Judges I before (m >>= f) ok' Q := by
  intro s hs
  obtain ⟨h₁, hP⟩ := hm s hs
  exact hf _ hP _ h₁

theorem symbols {f : Symbols → Analysis β}
    (hf : ∀ t, (∃ s, I before s ∧ s.table = t) → Judges I before (f t) ok' Q) :
    Judges I before (Analysis.symbols >>= f) ok' Q := fun s hs => hf _ ⟨s, hs, rfl⟩ s hs

theorem unsafeAllowed {f : Bool → Analysis β} (hf : ∀ allowed, Judges I before (f allowed) ok' Q) :
    Judges I before (Analysis.unsafeAllowed >>= f) ok' Q := fun s hs => hf _ s hs

/-- A result that is there if the verdict is good. -/
@[simp] theorem isSome_if (ok : Bool) (a : α) : (if ok then some a else none).isSome = ok := by
  cases ok <;> rfl

/-- What is kept whatever the verdict. -/
theorem ensures {I : State → Prop} (h : Judges (fun _ => I) before m ok P) : Ensures I m P := h

end Judges

/-- A step that reports an error and then gives up. -/
theorem Reports.reject (hI : Reports I) (loc : Location) {cause : Cause} (hc : cause.isFault = true)
    {a : α} (ha : ok a = false) (h : P a) :
    Judges I before (do report loc cause; return a) ok P :=
  fun _ hs => ⟨ha.symm ▸ hI.fault loc hc hs, h⟩

theorem Reports.warn (hI : Reports I) (loc : Location) {cause : Cause}
    (hc : cause.severity = .warning) :
    Judges I before (report loc cause) (fun _ => before) fun _ => True :=
  fun _ hs => ⟨hI.warning loc hc hs, trivial⟩

/-- A step that reports that an operand is missing and then gives up. -/
theorem Judging.lacks (hI : Judging I) (loc : Location) {a : α} (ha : ok a = false) (h : P a) :
    Judges I before (do report loc (.defect .missingOperand); return a) ok P :=
  fun _ hs => ⟨ha.symm ▸ hI.missing loc hs, h⟩

end Verdict

end Analysis

end TreeSema
