import TreeSema.Proofs.Filled
import TreeSema.Proofs.Growth

/-!
# Tables that lag behind

A table lags behind another if the two differ in nothing but the variables that have a value, and
those that have one in the first have one in the second. Expressions change a table by giving values
to variables only, so that the table before an expression lags behind the one after it.

* `Symbols.Lags`: a table lags behind another; every question that is asked of tables during an
  analysis, values apart, has the same answer in both (`Lags.filled_eq`).
* `State.Marks`: what expressions do to a state.
* `State.Trails`: a state of one analysis trails a state of another.
-/
namespace TreeSema

variable {e e' : SymbolEntry} {t t' : Symbols}

/-- Does an entry stand for a variable that has a value? -/
def Entry.hasValue (e : SymbolEntry) : Bool :=
  match e.kind with
  | .var v => v.initialized
  | _ => false

/-- Two entries differ only in variables that have a value, and one that has a value in the first
has one in the second. -/
structure Entry.Lags (e e' : SymbolEntry) : Prop where
  filled : e.filled = e'.filled
  value : e.hasValue = true → e'.hasValue = true

/-- Where one of two entries that differ in values only is a variable, the other is. -/
theorem Entry.var_of_filled (h : e.filled = e'.filled) {v' : Variable}
    (hv : e'.kind = .var v') : ∃ v, e.kind = .var v ∧ v.type = v'.type ∧
      v.mutable = v'.mutable ∧ v.storage = v'.storage := by
  obtain ⟨name, static, kind, loc⟩ := e
  obtain ⟨name', static', kind', loc'⟩ := e'
  obtain rfl : kind' = .var v' := hv
  have hkind : ModuleBody.filledKind kind = .var { v' with initialized := true } :=
    congrArg (fun e : SymbolEntry => e.kind) h
  rcases kind with _ | _ | ⟨_ | _⟩ | v | _ | _ | _ | _ | _ | _ | _
  case var =>
    simp only [ModuleBody.filledKind, EntryKind.var.injEq, Variable.mk.injEq] at hkind
    exact ⟨v, rfl, hkind.1, hkind.2.1, hkind.2.2.1⟩
  all_goals cases hkind

/-- Entries that differ in values only are of the same kind, unless they are variables or
modules. -/
theorem Entry.kind_of_filled (h : e.filled = e'.filled)
    (hvar : ∀ v, e'.kind ≠ .var v) (hmodule : ∀ b, e'.kind ≠ .moduleDef b) : e.kind = e'.kind := by
  obtain ⟨name, static, kind, loc⟩ := e
  obtain ⟨name', static', kind', loc'⟩ := e'
  have hkind : ModuleBody.filledKind kind = ModuleBody.filledKind kind' :=
    congrArg (fun e : SymbolEntry => e.kind) h
  have hkept : ModuleBody.filledKind kind' = kind' := by
    cases kind' with
    | var v => exact absurd rfl (hvar v)
    | moduleDef b => exact absurd rfl (hmodule b)
    | _ => rfl
  rw [hkept] at hkind
  rcases kind with _ | _ | ⟨_ | _⟩ | v | _ | _ | _ | _ | _ | _ | _
  case var => exact absurd hkind.symm (hvar _)
  case moduleDef.some => exact absurd hkind.symm (hmodule _)
  all_goals exact hkind

/-- Entries that differ in values only are both variables, both modules or of the same kind. -/
theorem Entry.kind_cases_of_filled (h : e.filled = e'.filled) :
    (∃ v v', e.kind = .var v ∧ e'.kind = .var v' ∧ v.type = v'.type ∧ v.mutable = v'.mutable ∧
      v.storage = v'.storage) ∨
    (∃ b b', e.kind = .moduleDef b ∧ e'.kind = .moduleDef b') ∨ e.kind = e'.kind := by
  cases hkind : e'.kind with
  | var v' =>
    obtain ⟨v, hv, heq⟩ := var_of_filled h hkind
    exact .inl ⟨v, v', hv, rfl, heq⟩
  | moduleDef b' =>
    refine .inr (.inl ?_)
    have hfilled : ModuleBody.filledKind e.kind = ModuleBody.filledKind (.moduleDef b') :=
      (congrArg (fun e : SymbolEntry => e.kind) h).trans (congrArg ModuleBody.filledKind hkind)
    cases hk : e.kind with
    | moduleDef b => exact ⟨b, b', rfl, rfl⟩
    | _ =>
      rw [hk] at hfilled
      cases b' <;> cases hfilled
  | _ => exact .inr (.inr (hkind ▸ kind_of_filled h (by simp [hkind]) (by simp [hkind])))

namespace Entry.Lags

theorem refl (e : SymbolEntry) : e.Lags e := ⟨rfl, id⟩

theorem trans {e₁ e₂ e₃ : SymbolEntry} (h : e₁.Lags e₂) (h' : e₂.Lags e₃) : e₁.Lags e₃ :=
  ⟨h.filled.trans h'.filled, h'.value ∘ h.value⟩

theorem matching : Entry.Matching Entry.Lags where
  name h := (congrArg Entry.name h.filled :)
  static h := (congrArg Entry.static h.filled :)

theorem hasValue_withValue (e : SymbolEntry) (h : e.hasValue = true) :
    e.withValue.hasValue = true := by
  obtain ⟨name, static, kind, loc⟩ := e
  cases kind with
  | var v => rfl
  | _ => cases h

theorem filled_withValue (e : SymbolEntry) : e.withValue.filled = e.filled := by
  obtain ⟨name, static, kind, loc⟩ := e
  rcases kind with _ | _ | ⟨_ | _⟩ <;> rfl

theorem withValue_right (h : e.Lags e') : e.Lags e'.withValue :=
  ⟨h.filled.trans (filled_withValue e').symm, fun hv => hasValue_withValue e' (h.value hv)⟩

/-- A lagging entry of a variable is one of a variable that differs only in having a value. -/
theorem var_left (h : e.Lags e') {v' : Variable} (hv : e'.kind = .var v') :
    ∃ v, e.kind = .var v ∧ v.type = v'.type ∧ v.mutable = v'.mutable ∧ v.storage = v'.storage ∧
      (v.initialized = true → v'.initialized = true) := by
  obtain ⟨v, hv₀, htype, hmutable, hstorage⟩ := var_of_filled h.filled hv
  have hvalue := h.value
  unfold hasValue at hvalue
  rw [hv₀, hv] at hvalue
  exact ⟨v, hv₀, htype, hmutable, hstorage, hvalue⟩

theorem withValue (h : e.Lags e') : e.withValue.Lags e'.withValue := by
  refine ⟨by rw [filled_withValue, filled_withValue, h.filled], fun hv => ?_⟩
  obtain ⟨name, static, kind, loc⟩ := e
  obtain ⟨name', static', kind', loc'⟩ := e'
  have hkind : ModuleBody.filledKind kind = ModuleBody.filledKind kind' :=
    congrArg (fun e : SymbolEntry => e.kind) h.filled
  rcases kind with _ | _ | ⟨_ | _⟩ | v | _ | _ | _ | _ | _ | _ | _
  case var =>
    rcases kind' with _ | _ | ⟨_ | _⟩ | v | _ | _ | _ | _ | _ | _ | _
    case var => rfl
    all_goals cases hkind
  all_goals cases hv

end Entry.Lags

/-- A table differs from another only in variables that have a value, and those that have one have
one in the other. -/
def Symbols.Lags (t t' : Symbols) : Prop := Table.Rel Entry.Lags t t'

namespace Symbols.Lags

theorem refl (t : Symbols) : t.Lags t := Table.Rel.refl .refl t

theorem trans {t₁ t₂ t₃ : Symbols} (h : t₁.Lags t₂) (h' : t₂.Lags t₃) : t₁.Lags t₃ := by
  have hentry : ∀ e₁ e₂ e₃ : SymbolEntry, e₁.Lags e₂ → e₂.Lags e₃ → e₁.Lags e₃ :=
    fun _ _ _ => .trans
  have hscope : ∀ s₁ s₂ s₃ : Scope ModuleBody, s₁.Rel Entry.Lags s₂ → s₂.Rel Entry.Lags s₃ →
      s₁.Rel Entry.Lags s₃ := fun _ _ _ h h' =>
    ⟨forall₂_comp h.transient h'.transient fun e _ => hentry e,
      forall₂_comp h.persistent h'.persistent fun e _ => hentry e, h.order.trans h'.order,
      h.context.trans h'.context⟩
  exact ⟨hscope _ _ _ h.root h'.root, forall₂_comp h.stack h'.stack fun s _ => hscope s⟩

theorem map_eq_of_forall₂ {α β : Type} {R : α → α → Prop} {f : α → β} {as as' : List α}
    (hf : ∀ a a', R a a' → f a = f a') (h : List.Forall₂ R as as') : as.map f = as'.map f := by
  rw [← List.forall₂_eq_eq_eq, List.forall₂_map_left_iff, List.forall₂_map_right_iff]
  exact h.imp hf

/-- Tables of which one lags behind the other are the same up to values. -/
theorem filled_eq (h : t.Lags t') : t.filled = t'.filled := by
  have hentry : ∀ e e' : SymbolEntry, e.Lags e' → e.filled = e'.filled := fun _ _ h => h.filled
  have hscope : ∀ s s' : Scope ModuleBody, s.Rel Entry.Lags s' → s.filled = s'.filled := by
    intro s s' h
    unfold Scope.filled
    rw [map_eq_of_forall₂ hentry h.transient, map_eq_of_forall₂ hentry h.persistent, h.order,
      h.context]
  unfold filled
  rw [hscope _ _ h.root, map_eq_of_forall₂ hscope h.stack]

theorem lookup (h : t.Lags t') (name : Ident) :
    Option.Rel Entry.Lags (t.lookup name) (t'.lookup name) :=
  Table.Rel.lookup Entry.Lags.matching h name

theorem withValue_right (h : t.Lags t') (name : Ident) :
    t.Lags (t'.modify name .withValue) :=
  Table.Rel.modify_right Entry.Lags.matching h name .withValue_right

theorem withValue (h : t.Lags t') (name : Ident) :
    Symbols.Lags (t.modify name .withValue) (t'.modify name .withValue) :=
  Table.Rel.modify Entry.Lags.matching h name .withValue

theorem insert (h : t.Lags t') (he : e.Lags e') :
    Symbols.Lags (t.insert e) (t'.insert e') := Table.Rel.insert Entry.Lags.matching h he

end Symbols.Lags

/-- A module with a lagging table lags behind. -/
theorem Entry.Lags.module (name : Ident) (loc : Location) (h : t.Lags t') :
    Entry.Lags (.definition name (.moduleDef (some (.table t))) loc)
      (.definition name (.moduleDef (some (.table t'))) loc) := by
  refine ⟨?_, nofun⟩
  simp only [Entry.filled, Entry.definition, ModuleBody.filledKind, ModuleBody.filled_eq,
    ModuleBody.get, h.filled_eq]

namespace Analysis

variable {u s : State}

/-- What expressions do to a state: they report and give values to variables. -/
structure State.Marks (s s' : State) : Prop where
  table : s.table.Lags s'.table
  returns : s'.returns = s.returns
  declared : s'.declared = s.declared

theorem State.Marks.refl (s : State) : s.Marks s := ⟨.refl _, rfl, rfl⟩

theorem State.Marks.trans {s₁ s₂ s₃ : State} (h : s₁.Marks s₂) (h' : s₂.Marks s₃) :
    s₁.Marks s₃ where
  table := h.table.trans h'.table
  returns := h'.returns.trans h.returns
  declared := h'.declared.trans h.declared

theorem marks_stable (s : State) : Stable s.Marks where
  report _ hs := ⟨hs.table, hs.returns, hs.declared⟩
  refuse _ _ hs := ⟨hs.table, hs.returns, hs.declared⟩
  value name hs := ⟨hs.table.withValue_right name, hs.returns, hs.declared⟩

theorem exprAt_marks (cfg : Config) (k : Nat) (n : Node) (expected : Ty) (s : State) :
    s.Marks (exprAt cfg k n expected s).2 :=
  (exprAt_relates (marks_stable s) (trivial_rewriting _) cfg k n expected s (.refl s)).1

/-- A state of an analysis trails one of another: it is clean, its table lags behind, and all else
is the same. -/
structure State.Trails (u s : State) : Prop where
  table : u.table.Lags s.table
  returns : u.returns = s.returns
  declared : u.declared = s.declared
  clean : u.Clean

theorem State.trails_init : State.Trails {} {} := ⟨.refl _, rfl, rfl, clean_init⟩

/-- States that trail, with other tables. -/
theorem State.Trails.withTable (h : u.Trails s) (ht : t.Lags t') :
    State.Trails { u with table := t } { s with table := t' } where
  table := ht
  returns := h.returns
  declared := h.declared
  clean := ⟨h.clean.findings, h.clean.depthReported⟩

theorem State.Trails.withReturns (h : u.Trails s) {rs rs'} (hr : rs = rs') :
    State.Trails { u with returns := rs } { s with returns := rs' } where
  table := h.table
  returns := hr
  declared := h.declared
  clean := ⟨h.clean.findings, h.clean.depthReported⟩

/-- A state that trails another trails what expressions make of that. -/
theorem State.Trails.of_marks {s'} (h : u.Trails s) (hs : s.Marks s') : u.Trails s' where
  table := h.table.trans hs.table
  returns := h.returns.trans hs.returns.symm
  declared := h.declared.trans hs.declared.symm
  clean := h.clean

end Analysis

end TreeSema
