import TreeSema.Proofs.Accept.Run
import TreeSema.Proofs.Respect

/-!
# Checks that are made again

A second analysis of a program goes through states that trail those of the first: the same is
declared, but fewer variables may have a value, since what a call or a literal was made of is not
looked into again. A check that rejected nothing in the first rejects nothing in the second.

* `Repeats`: from a state, a step has a result and ends in a state that trails another.
* `Resumes`: so it does from all states that trail one.
* `Follows`: whatever a step does without errors, another does from any state that trails.
* `Follows.respected`: the checks that expressions are made of do so.
-/
namespace TreeSema

namespace Symbols.Lags

variable {α β : Type} {t t' : Symbols}

/-- A question to which values make no difference has the same answer in both tables. -/
theorem same {q : Symbols → β → α} (hq : ∀ t b, q t.filled b = q t b) (h : t.Lags t') (b : β) :
    q t b = q t' b := by
  rw [← hq t, h.filled_eq, hq]

theorem same₂ {γ : Type} {q : Symbols → β → γ → α} (hq : ∀ t b c, q t.filled b c = q t b c)
    (h : t.Lags t') (b : β) (c : γ) : q t b c = q t' b c := by
  rw [← hq t, h.filled_eq, hq]

theorem lookup_eq_none (h : t.Lags t') {name} (hnone : t'.lookup name = none) :
    t.lookup name = none := by
  have hrel := h.lookup name
  rw [hnone] at hrel
  generalize t.lookup name = e at hrel
  cases hrel
  rfl

theorem lookup_eq_some (h : t.Lags t') {name e'} (he : t'.lookup name = some e') :
    ∃ e, t.lookup name = some e ∧ e.Lags e' := by
  have hrel := h.lookup name
  rw [he] at hrel
  generalize t.lookup name = e at hrel
  cases hrel with
  | some hlags => exact ⟨_, rfl, hlags⟩

/-- A path leads to entries that differ in values only. -/
theorem resolve_eq_some (h : t.Lags t') {path} {e' : SymbolEntry} (he : t'.resolve path = some e') :
    ∃ e, t.resolve path = some e ∧ e.filled = e'.filled := by
  have hfilled := resolve_filled path t
  rw [h.filled_eq, resolve_filled, he] at hfilled
  obtain ⟨e, he, heq⟩ := Option.map_eq_some_iff.1 hfilled.symm
  exact ⟨e, he, heq⟩

end Symbols.Lags

namespace Analysis

variable {α β : Type}

namespace State.Trails

variable {u s : State}

/-- A further warning makes no difference. -/
theorem warn (h : u.Trails s) {f : Finding} (hf : f.cause.severity ≠ .error) :
    State.Trails { u with findings := u.findings ++ [f] } s where
  table := h.table
  returns := h.returns
  declared := h.declared
  clean := ⟨List.forall_mem_append.2 ⟨h.clean.findings, by simpa using hf⟩, h.clean.depthReported⟩

end State.Trails

/-! ## Runs from a state that trails -/

/-- From `u` a step has the result `a`, and it ends in a state that trails `s`. -/
def Repeats (m : Analysis α) (u : State) (a : α) (s : State) : Prop :=
  ∃ u', m u = (a, u') ∧ u'.Trails s

theorem Repeats.pure {u s : State} {a : α} (h : u.Trails s) : Repeats (Pure.pure a) u a s :=
  ⟨u, rfl, h⟩

/-- From every state that trails `s` a step has the result `a`, and it ends in a state that trails
`s'`. -/
def Resumes (m : Analysis α) (s : State) (a : α) (s' : State) : Prop :=
  ∀ ⦃u⦄, u.Trails s → Repeats m u a s'

namespace Resumes

variable {s s₁ s' : State} {a : α} {b : β} {m : Analysis α} {f : α → Analysis β}

theorem pure : Resumes (Pure.pure a) s a s := fun _ => .pure

theorem bind (hm : Resumes m s a s₁) (hf : Resumes (f a) s₁ b s') :
    Resumes (m >>= f) s b s' := by
  intro u hu
  obtain ⟨u₁, hrun, hu₁⟩ := hm hu
  obtain ⟨u₂, hrun₂, hu₂⟩ := hf hu₁
  exact ⟨u₂, by rw [bind_apply, hrun]; exact hrun₂, hu₂⟩

theorem symbols {f : Symbols → Analysis β}
    (hf : ∀ {t : Symbols}, t.Lags s.table → Resumes (f t) s b s') :
    Resumes (Analysis.symbols >>= f) s b s' := fun _ hu => hf hu.table hu

theorem get {f : State → Analysis β} (hf : ∀ {u : State}, u.Trails s → Resumes (f u) s b s') :
    Resumes (MonadState.get >>= f) s b s' := fun _ hu => hf hu hu

theorem modifyTable {g : Symbols → Symbols} {t'}
    (hg : ∀ {t : Symbols}, t.Lags s.table → (g t).Lags t') :
    Resumes (Analysis.modifyTable g) s () { s with table := t' } :=
  fun _ hu => ⟨_, rfl, hu.withTable (hg hu.table)⟩

theorem around {operands h cs fs b} (ho : Resumes operands s (cs, a) s') :
    Resumes (Analysis.around h fs b operands) s (.mk h cs fs b, a) s' := ho.bind .pure

/-- What comes before in the first analysis may be marks. -/
theorem of_marks (h : Resumes m s₁ a s') (hs : s.Marks s₁) : Resumes m s a s' :=
  fun _ hu => h (hu.of_marks hs)

end Resumes

/-- Whatever the first of two steps does without errors, the second does from any state that
trails. -/
structure Follows (m m' : Analysis α) : Prop where
  growing : Growing m
  again : ∀ {s u : State}, u.Trails s → (m s).2.Clean → Repeats m' u (m s).1 (m s).2

namespace Follows

variable {m m' : Analysis α} {f f' : α → Analysis β}

theorem run (h : Follows m m') {s s'} {a : α} (hrun : CleanRun m s a s') : Resumes m' s a s' := by
  intro u hu
  have hagain := h.again hu (by rw [hrun.run]; exact hrun.clean)
  rwa [hrun.run] at hagain

theorem pure (a : α) : Follows (Pure.pure a) (Pure.pure a) := ⟨.pure a, fun hu _ => .pure hu⟩

theorem bind (hm : Follows m m') (hf : ∀ a, Follows (f a) (f' a)) :
    Follows (m >>= f) (m' >>= f') where
  growing := hm.growing.bind fun a => (hf a).growing
  again {s u} hu hclean := by
    have hmid := ((hf _).growing _).clean hclean
    obtain ⟨u₁, hrun, hu₁⟩ := hm.again hu hmid
    obtain ⟨u₂, hrun₂, hu₂⟩ := (hf _).again hu₁ hclean
    exact ⟨u₂, by rw [bind_apply, hrun]; exact hrun₂, hu₂⟩

/-- A step that reports an error does nothing without errors. -/
theorem reports {m₀} (hm : Growing m₀) (loc : Location) {cause : Cause}
    (herror : cause.severity = .error) : Follows (do report loc cause; m₀) m' where
  growing := (growing_report loc cause).bind fun _ => hm
  again _ hclean :=
    have hfound : ⟨loc, cause⟩ ∈ (report loc cause _).2.findings := by simp [report_apply]
    absurd ((hm _).clean hclean) (not_clean_of_error hfound herror)

theorem rejects (loc : Location) {cause : Cause} (herror : cause.severity = .error) (a : α) :
    Follows (do report loc cause; return a) m' := reports (.pure a) loc herror

theorem symbols {f f' : Symbols → Analysis β} (hf : ∀ {t t'}, t'.Lags t → Follows (f t) (f' t')) :
    Follows (Analysis.symbols >>= f) (Analysis.symbols >>= f') where
  growing := growing_symbols.bind fun t => (hf (.refl t)).growing
  again hu hclean := (hf hu.table).again hu hclean

/-- A step that looks at how much is declared. -/
theorem declared {f : List (Ty × Location) → Analysis β} (hf : ∀ ds, Follows (f ds) (f ds)) :
    Follows (do f (← MonadState.get).declared) (do f (← MonadState.get).declared) where
  growing := growing_get.bind fun _ => (hf _).growing
  again {s u} hu hclean := by
    change Repeats (f u.declared) u (f s.declared s).1 (f s.declared s).2
    rw [hu.declared]
    exact (hf _).again hu hclean

theorem modifyTable {g g' : Symbols → Symbols} (hg : ∀ {t t'}, t'.Lags t → (g' t').Lags (g t)) :
    Follows (Analysis.modifyTable g) (Analysis.modifyTable g') where
  growing := growing_modifyTable g
  again hu _ := ⟨_, rfl, hu.withTable (hg hu.table)⟩

theorem insert {e e' : SymbolEntry} (he : e'.Lags e) :
    Follows (Analysis.insert e) (Analysis.insert e') := modifyTable fun ht => ht.insert he

/-- A warning may be given in one of two steps, in both or in none. -/
theorem warnings {c c' : Prop} [Decidable c] [Decidable c'] (loc : Location) {cause : Cause}
    (hwarning : cause.severity ≠ .error) (a : α) :
    Follows (if c then Pure.pure a else do report loc cause; return a)
      (if c' then Pure.pure a else do report loc cause; return a) := by
  have hwarned : ∀ {s u : State}, u.Trails s →
      Repeats (if c' then Pure.pure a else do report loc cause; return a) u a s := by
    intro s u hu
    split
    · exact .pure hu
    · exact ⟨_, rfl, hu.warn hwarning⟩
  split
  · exact ⟨.pure a, fun hu _ => hwarned hu⟩
  · exact ⟨(growing_report loc cause).bind fun _ => .pure a,
      fun hu _ => hwarned (hu.of_marks ⟨.refl _, rfl, rfl⟩)⟩

end Follows

/-! ## Checks -/

/-- Entries that differ in values only are read alike. -/
theorem readEntry_follows (loc : Location) (path : List Ident) {e e' : SymbolEntry}
    (he : e'.filled = e.filled) : Follows (readEntry loc path e) (readEntry loc path e') := by
  unfold readEntry
  split
  · rename_i v hv
    obtain ⟨v', hv', htype, -, -⟩ := Entry.var_of_filled he hv
    rw [hv']
    dsimp only
    rw [htype]
    exact .warnings loc (by simp [Cause.severity]) _
  · exact .rejects loc rfl none

/-- What is reported again is a warning. -/
theorem Follows.respected : Respected (fun t t' => t'.Lags t) @Follows where
  filled ht := ht.filled_eq.symm
  pure := .pure
  bind := .bind
  seeing := .symbols
  report loc cause _ := by
    refine ⟨growing_report loc cause, fun {s u} hu hclean => ?_⟩
    have hwarning : cause.severity ≠ .error :=
      hclean.findings ⟨loc, cause⟩ (by simp [report_apply])
    exact ⟨_, rfl, (hu.warn hwarning).of_marks ⟨.refl _, rfl, rfl⟩⟩
  read loc path {t t' e e'} ht he he' := by
    obtain ⟨d, hd, hfilled⟩ := ht.resolve_eq_some he
    cases hd.symm.trans he'
    exact readEntry_follows loc path hfilled

end Analysis

end TreeSema
