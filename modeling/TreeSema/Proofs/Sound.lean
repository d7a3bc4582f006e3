import TreeSema.Proofs.Growth
import TreeSema.Proofs.Scopes

/-!
# Tables that an analysis can build

A table that an analysis has built keeps its definitions apart, its variables are the entries that
are not static, and the tables of its modules are finished: they are of the same kind and have no
open scope.

* `Symbols.Sound`: such a table, and what keeps it so.
* `Symbols.Touched`: expressions change a table by giving values to variables and in no other way.
* `State.Later`, `State.Leads`: a later state, in which everything that was defined still is.
-/
namespace TreeSema

variable {M : Type}

/-! ## Entries -/

namespace Entry

/-- Definitions are static and variables are not, and modules have tables; values of enums and arms
of variants have no entries of their own. -/
def Regular (e : Entry M) : Prop :=
  match e.kind with
  | .var _ => e.static = false
  | .moduleDef table => e.static = true ∧ table.isSome
  | .unspecified | .enumValue .. | .variantArm .. => False
  | _ => e.static = true

/-- An entry is left alone or, if it is a variable, gets a value. -/
def Touched (e e' : Entry M) : Prop := e' = e ∨ e' = e.withValue

theorem withValue_cases (e : Entry M) : e.withValue = e ∨
    ∃ v, e.kind = .var v ∧ e.withValue = { e with kind := .var { v with initialized := true } } := by
  unfold withValue
  split
  · rename_i v hv
    exact .inr ⟨v, hv, rfl⟩
  · exact .inl rfl

/-- What an entry says apart from its kind is left alone. -/
theorem Touched.matching : Entry.Matching (Touched : Entry M → Entry M → Prop) where
  name h := by
    rcases h with rfl | rfl
    · rfl
    · rename_i e
      rcases e.withValue_cases with h | ⟨v, -, h⟩ <;> rw [h]
  static h := by
    rcases h with rfl | rfl
    · rfl
    · rename_i e
      rcases e.withValue_cases with h | ⟨v, -, h⟩ <;> rw [h]

theorem Touched.refl (e : Entry M) : e.Touched e := .inl rfl

theorem Touched.withValue {e e' : Entry M} (h : e.Touched e') : e.Touched e'.withValue := by
  rcases h with rfl | rfl
  · exact .inr rfl
  · refine .inr ?_
    rcases e.withValue_cases with h | ⟨v, hv, h⟩
    · rw [h, h]
    · rw [h]
      rfl

/-- Only variables get values. -/
theorem Touched.eq {e e' : Entry M} (h : e.Touched e') (hvar : ∀ v, e.kind ≠ .var v) : e' = e := by
  rcases h with rfl | rfl
  · rfl
  · rcases e.withValue_cases with h | ⟨v, hv, -⟩
    · exact h
    · exact absurd hv (hvar v)

theorem Touched.var {e e' : Entry M} (h : e.Touched e') {v} (hv : e.kind = .var v) :
    ∃ v', e'.kind = .var v' := by
  rcases h with rfl | rfl
  · exact ⟨v, hv⟩
  · unfold Entry.withValue
    rw [hv]
    exact ⟨_, rfl⟩

theorem Touched.regular {e e' : Entry M} (h : e.Touched e') (he : e.Regular) : e'.Regular := by
  by_cases hvar : ∃ v, e.kind = .var v
  · obtain ⟨v, hv⟩ := hvar
    obtain ⟨v', hv'⟩ := h.var hv
    unfold Regular at he ⊢
    rw [hv] at he
    rw [hv', ← Touched.matching.static h]
    exact he
  · rwa [h.eq (not_exists.1 hvar)]

theorem Regular.static_iff {e : Entry M} (h : e.Regular) : e.static = true ↔ ∀ v, e.kind ≠ .var v := by
  unfold Regular at h
  cases hk : e.kind <;> simp_all

theorem regular_binding (name : Ident) (v : Variable) (loc : Location) :
    (binding name v loc : Entry M).Regular := rfl

end Entry

/-! ## Tables -/

/-- A table of which some variables may have got values. -/
abbrev Symbols.Touched (t t' : Symbols) : Prop := Table.Rel Entry.Touched t t'

/-- A table that keeps its definitions apart, and so do the finished tables of its modules. -/
inductive Symbols.Sound : Symbols → Prop
  | intro {t : Symbols} (apart : t.Apart) (regular : ∀ e, t.Holds e → e.Regular)
      (closed : ∀ e body, t.Holds e → e.kind = .moduleDef (some body) → body.get.stack = [])
      (modules : ∀ e body, t.Holds e → e.kind = .moduleDef (some body) → Sound body.get) : Sound t

namespace Symbols

variable {t t' : Symbols} {e : SymbolEntry}

theorem Touched.refl (t : Symbols) : t.Touched t := Table.Rel.refl .refl t

theorem Touched.holds (h : t.Touched t') {e'} (he' : t'.Holds e') :
    ∃ e, t.Holds e ∧ e.Touched e' := by
  obtain ⟨s', hs', he'⟩ := he'
  obtain ⟨s, hs, hrel⟩ := exists_of_forall₂_right (List.Forall₂.cons h.root h.stack) hs'
  rcases he' with he' | he'
  · obtain ⟨e, he, hee⟩ := exists_of_forall₂_right hrel.transient he'
    exact ⟨e, ⟨s, hs, .inl he⟩, hee⟩
  · obtain ⟨e, he, hee⟩ := exists_of_forall₂_right hrel.persistent he'
    exact ⟨e, ⟨s, hs, .inr he⟩, hee⟩

/-- Modules are left alone. -/
theorem Touched.holds_module (h : t.Touched t') {e' : SymbolEntry} {body} (he' : t'.Holds e')
    (hk : e'.kind = .moduleDef body) : t.Holds e' := by
  obtain ⟨e, he, hee⟩ := h.holds he'
  obtain rfl := hee.eq fun v hv => by
    obtain ⟨v', hv'⟩ := hee.var hv
    rw [hv'] at hk
    cases hk
  exact he

theorem Touched.lookup_eq_none (ht : t.Touched t') {name} (h : t.lookup name = none) :
    t'.lookup name = none := by
  have hrel := Table.Rel.lookup Entry.Touched.matching ht name
  rw [h] at hrel
  rcases hl : t'.lookup name with _ | e
  · rfl
  · rw [hl] at hrel
    cases hrel

namespace Sound

theorem apart (h : t.Sound) : t.Apart := by
  cases h with
  | intro apart _ _ _ => exact apart

theorem regular (h : t.Sound) (he : t.Holds e) : e.Regular := by
  cases h with
  | intro _ regular _ _ => exact regular e he

theorem closed (h : t.Sound) {body : ModuleBody} (he : t.Holds e)
    (hk : e.kind = .moduleDef (some body)) : body.get.stack = [] := by
  cases h with
  | intro _ _ closed _ => exact closed e body he hk

theorem module (h : t.Sound) {body : ModuleBody} (he : t.Holds e)
    (hk : e.kind = .moduleDef (some body)) : Sound body.get := by
  cases h with
  | intro _ _ _ modules => exact modules e body he hk

/-- A table that keeps its definitions apart is sound if its entries come from a sound one. -/
theorem of_holds (h : t.Sound) (hapart : t'.Apart)
    (hsub : ∀ e, t'.Holds e → t.Holds e) : t'.Sound :=
  .intro hapart (fun _ he => h.regular (hsub _ he)) (fun _ _ he => h.closed (hsub _ he))
    fun _ _ he => h.module (hsub _ he)

theorem empty : Sound .empty :=
  .intro Table.apart_empty (fun _ he => absurd he Table.not_holds_empty)
    (fun _ _ he => absurd he Table.not_holds_empty) fun _ _ he => absurd he Table.not_holds_empty

theorem insert (h : t.Sound)
    (hfree : e.static = true → t.lookup e.name = none) (hregular : e.Regular)
    (hmodule : ∀ body, e.kind = .moduleDef (some body) → body.get.stack = [] ∧ Sound body.get) :
    Sound (t.insert e) := by
  refine .intro (h.apart.insert hfree) (fun d hd => ?_) (fun d body hd hk => ?_)
    fun d body hd hk => ?_
  · rcases hd.of_insert with rfl | hd
    · exact hregular
    · exact h.regular hd
  · rcases hd.of_insert with rfl | hd
    · exact (hmodule body hk).1
    · exact h.closed hd hk
  · rcases hd.of_insert with rfl | hd
    · exact (hmodule body hk).2
    · exact h.module hd hk

/-- A variable may be bound whatever is bound further out. -/
theorem bind (h : t.Sound) (name : Ident) (v : Variable) (loc : Location) :
    Sound (t.insert (.binding name v loc)) :=
  h.insert nofun (Entry.regular_binding name v loc) nofun

theorem enter (h : t.Sound) (context : Context) : Sound (t.enter context) :=
  h.of_holds (h.apart.enter context) fun _ he => he.of_enter

theorem exit (h : t.Sound) : Sound t.exit :=
  h.of_holds h.apart.exit fun _ he => he.of_exit

theorem touched (h : t.Sound) (ht : t.Touched t') : Sound t' := by
  refine .intro (Table.Rel.apart Entry.Touched.matching ht h.apart) (fun e' he' => ?_)
    (fun _ _ he' hk => h.closed (ht.holds_module he' hk) hk)
    fun _ _ he' hk => h.module (ht.holds_module he' hk) hk
  obtain ⟨e, he, hee⟩ := ht.holds he'
  exact hee.regular (h.regular he)

/-- A definition is no variable. -/
theorem not_var_of_defines (h : t.Sound) (he : t.Defines e) (v : Variable) : e.kind ≠ .var v := by
  obtain ⟨s, hs, hmem⟩ := he
  exact ((h.regular (Table.holds_iff.2 ⟨s, hs, .inr hmem⟩)).static_iff.1
    ((h.apart.orderly s hs).static e hmem)) v

/-- An entry that is no variable is a definition. -/
theorem defines_of_holds (h : t.Sound) (he : t.Holds e)
    (hvar : ∀ v, e.kind ≠ .var v) : t.Defines e := by
  obtain ⟨s, hs, hmem⟩ := Table.holds_iff.1 he
  rcases hmem with hmem | hmem
  · have hpassing := (h.apart.orderly s hs).passing e hmem
    rw [(h.regular he).static_iff.2 hvar] at hpassing
    cases hpassing
  · exact ⟨s, hs, hmem⟩

end Sound

theorem Touched.defines (h : t.Touched t') (ht : t.Sound) (he : t.Defines e) : t'.Defines e := by
  obtain ⟨s, hs, hmem⟩ := he
  obtain ⟨s', hs', hrel⟩ := exists_of_forall₂_left (Table.Rel.scopes h) hs
  obtain ⟨e', he', hee⟩ := exists_of_forall₂_left hrel.persistent hmem
  obtain rfl := hee.eq (ht.not_var_of_defines ⟨s, hs, hmem⟩)
  exact ⟨s', hs', he'⟩

end Symbols

namespace Analysis

variable {α : Type}

/-! ## States -/

/-- What a step that declares nothing does to a state: variables may get values, and there may be
more findings. -/
structure State.Touches (s s' : State) : Prop where
  table : s.table.Touched s'.table
  findings : s.findings <+: s'.findings

theorem State.Touches.refl (s : State) : s.Touches s := ⟨.refl _, List.prefix_rfl⟩

theorem touches_stable (s : State) : Stable s.Touches where
  report _ hs := ⟨hs.table, hs.findings.trans (List.prefix_append _ _)⟩
  refuse _ _ hs := ⟨hs.table, hs.findings.trans (List.prefix_append _ _)⟩
  value name hs := ⟨Table.Rel.modify_right Entry.Touched.matching hs.table name .withValue, hs.findings⟩

theorem touches_of_ensures {m} {P : α → Prop} (h : ∀ s : State, Ensures s.Touches m P) (s : State) :
    s.Touches (m s).2 :=
  (h s s (.refl s)).1

theorem exprAt_touches (cfg : Config) (k : Nat) (n : Node) (expected : Ty) (s : State) :
    s.Touches (exprAt cfg k n expected s).2 :=
  touches_of_ensures (fun s => exprAt_relates (touches_stable s) (trivial_rewriting _) cfg k n
    expected) s

/-- A later state: what was defined still is, and what was found still is. -/
structure State.Later (s s' : State) : Prop where
  defines : ∀ e, s.table.Defines e → s'.table.Defines e
  findings : s.findings <+: s'.findings

/-- A later state with the same scopes open. -/
structure State.Leads (s s' : State) : Prop extends State.Later s s' where
  contexts : s'.table.contexts = s.table.contexts

namespace State

theorem Later.refl (s : State) : s.Later s := ⟨fun _ => id, List.prefix_rfl⟩

theorem Later.trans {s₁ s₂ s₃ : State} (h : s₁.Later s₂) (h' : s₂.Later s₃) : s₁.Later s₃ where
  defines e he := h'.defines e (h.defines e he)
  findings := h.findings.trans h'.findings

theorem Leads.refl (s : State) : s.Leads s := ⟨.refl s, rfl⟩

theorem Leads.trans {s₁ s₂ s₃ : State} (h : s₁.Leads s₂) (h' : s₂.Leads s₃) : s₁.Leads s₃ where
  toLater := h.toLater.trans h'.toLater
  contexts := h'.contexts.trans h.contexts

theorem Leads.depth {s s' : State} (h : s.Leads s') :
    s'.table.stack.length = s.table.stack.length := by
  have hlen := congrArg List.length h.contexts
  simpa [Table.length_contexts] using hlen

theorem later_enter (s : State) (context : Context) :
    s.Later { s with table := s.table.enter context } :=
  ⟨fun _ he => he.enter context, List.prefix_rfl⟩

theorem later_exit {s : State} (hs : s.table.Sound) :
    s.Later { s with table := s.table.exit } :=
  ⟨fun _ he => he.exit hs.apart, List.prefix_rfl⟩

end State

theorem State.Touches.leads {s s' : State} (h : s.Touches s') (hs : s.table.Sound) :
    s.Leads s' where
  defines _ he := h.table.defines hs he
  findings := h.findings
  contexts := (Table.Rel.contexts h.table).symm

/-- Inserting an entry whose name no definition of the innermost scope has. -/
theorem State.leads_insert {s : State} {e : SymbolEntry}
    (hopen : ∀ d ∈ s.table.current.persistent, d.name ≠ e.name) :
    s.Leads { s with table := s.table.insert e } where
  defines _ he := he.insert hopen
  findings := List.prefix_rfl
  contexts := Table.contexts_insert _ _

end Analysis

end TreeSema
