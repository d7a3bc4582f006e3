import TreeSema.Proofs.Rewrite.Stmt
import Mathlib.Data.Option.Basic

/-!
# Tables whose functions and variants are well-formed

Analysis declares no function with two parameters of one name, and it numbers the arms of a variant in
order. So along every analysis the tables are lawful: each function in them, also inside modules, has
parameters with different names, and each variant has numbered arms.

* `Table.Holds`: an entry is somewhere in the scopes of a table, and where it came from when the
  table was changed.
* `Table.resolveBy_cases`: what resolution does at the first segment of a path.
* `Symbols.Lawful.resolve`: a path leads to lawful entries only.
* `lawful_kept`: what statements do to a table keeps it lawful.
-/
namespace TreeSema

/-! ## Entries of a table -/

namespace Scope

variable {M : Type} {s : Scope M} {name : Ident} {e e' : Entry M}

/-- An entry of a scope. -/
def Holds (s : Scope M) (e : Entry M) : Prop := e ∈ s.transient ∨ e ∈ s.persistent

theorem holds_of_get? (h : s.get? name = some e) : s.Holds e := by
  rcases (Option.orElse_eq_some _ _ _).1 h with h | ⟨-, h⟩
  · exact .inr (List.mem_of_find?_eq_some h)
  · exact .inl (List.mem_of_find?_eq_some h)

theorem Holds.of_put (h : (s.put e).Holds e') : e' = e ∨ s.Holds e' := by
  have hwithout : ∀ {es : List (Entry M)}, e' ∈ without e.name es → e' ∈ es :=
    fun h => List.mem_of_mem_filter h
  rcases h with h | h
  · dsimp only [put] at h
    split at h
    · exact .inr (.inl (hwithout h))
    · rcases List.mem_append.1 h with h | h
      · exact .inr (.inl (hwithout h))
      · exact .inl (List.mem_singleton.1 h)
  · dsimp only [put] at h
    split at h
    · rcases List.mem_append.1 h with h | h
      · exact .inr (.inr (hwithout h))
      · exact .inl (List.mem_singleton.1 h)
    · exact .inr (.inr (hwithout h))

theorem Holds.of_modify {f : Entry M → Entry M} (h : (s.modify name f).Holds e') :
    ∃ e, s.Holds e ∧ (e' = e ∨ e' = f e) := by
  have hchange : ∀ {es : List (Entry M)}, (e' ∈ es.map fun e => if e.name = name then f e else e) →
      ∃ e ∈ es, e' = e ∨ e' = f e := by
    intro es h
    obtain ⟨e, he, rfl⟩ := List.mem_map.1 h
    refine ⟨e, he, ?_⟩
    split
    · exact .inr rfl
    · exact .inl rfl
  rcases h with h | h
  · obtain ⟨e, he, h⟩ := hchange h
    exact ⟨e, .inl he, h⟩
  · obtain ⟨e, he, h⟩ := hchange h
    exact ⟨e, .inr he, h⟩

theorem holds_of_mem_statics (h : e ∈ s.statics) : s.Holds e := by
  obtain ⟨name, -, h⟩ := List.mem_filterMap.1 h
  exact .inr (List.mem_of_find?_eq_some h)

end Scope

namespace Table

variable {M : Type} {e e' : Entry M} {t : Table M} {name : Ident} {f : Entry M → Entry M}

/-- An entry of one of the scopes of a table. -/
def Holds (t : Table M) (e : Entry M) : Prop := ∃ s ∈ t.root :: t.stack, s.Holds e

theorem not_holds_empty : ¬ (empty : Table M).Holds e := by
  rintro ⟨s, hs, h⟩
  obtain rfl : s = _ := by simpa [empty] using hs
  rcases h with h | h <;> simp [Scope.empty] at h

theorem holds_of_lookup (h : t.lookup name = some e) : t.Holds e := by
  rcases (Option.orElse_eq_some _ _ _).1 h with h | ⟨-, h⟩
  · obtain ⟨s, hs, h⟩ := List.exists_of_findSome?_eq_some h
    exact ⟨s, .tail _ hs, Scope.holds_of_get? h⟩
  · exact ⟨t.root, .head _, Scope.holds_of_get? h⟩

theorem Holds.of_insert (h : (t.insert e).Holds e') : e' = e ∨ t.Holds e' := by
  obtain ⟨root, stack⟩ := t
  obtain ⟨s, hs, h⟩ := h
  cases stack with
  | nil =>
    obtain rfl : s = root.put e := by simpa [insert, modifyCurrent] using hs
    exact h.of_put.imp id fun h => ⟨root, .head _, h⟩
  | cons top rest =>
    have hs : s = root ∨ s = top.put e ∨ s ∈ rest := by simpa [insert, modifyCurrent] using hs
    rcases hs with rfl | rfl | hs
    · exact .inr ⟨_, .head _, h⟩
    · exact h.of_put.imp id fun h => ⟨top, .tail _ (.head _), h⟩
    · exact .inr ⟨s, .tail _ (.tail _ hs), h⟩

theorem Holds.of_enter {context} (h : (t.enter context).Holds e) : t.Holds e := by
  obtain ⟨s, hs, h⟩ := h
  rcases List.mem_cons.1 hs with rfl | hs
  · exact ⟨_, .head _, h⟩
  · rcases List.mem_cons.1 hs with rfl | hs
    · rcases h with h | h <;> simp [Scope.empty] at h
    · exact ⟨s, .tail _ hs, h⟩

/-- What holds after entries were inserted held before, or is due to one of them. -/
theorem of_foldl_insert {P : Table M → Prop} (hP : ∀ {t d}, P (insert t d) → e = d ∨ P t) :
    ∀ {es : List (Entry M)} {t : Table M}, P (es.foldl insert t) → e ∈ es ∨ P t
  | [], _, h => .inr h
  | d :: es, t, h => by
    rcases of_foldl_insert hP (t := t.insert d) h with h | h
    · exact .inl (.tail _ h)
    · rcases hP h with rfl | h
      · exact .inl (.head _)
      · exact .inr h

/-- The entries that closing a scope leaves were there before. -/
theorem Holds.of_exit (h : t.exit.Holds e) : t.Holds e := by
  obtain ⟨root, stack⟩ := t
  cases stack with
  | nil => exact h
  | cons top rest =>
    rcases of_foldl_insert (P := (Holds · e)) Holds.of_insert h with h | ⟨s, hs, hold⟩
    · exact ⟨top, .tail _ (.head _), Scope.holds_of_mem_statics h⟩
    · rcases List.mem_cons.1 hs with rfl | hs
      · exact ⟨_, .head _, hold⟩
      · exact ⟨s, .tail _ (.tail _ hs), hold⟩

theorem holds_of_modifyIn : ∀ {ss ss' : List (Scope M)},
    modifyIn name f ss = some ss' → ∀ s' ∈ ss', s' ∈ ss ∨ ∃ s ∈ ss, s' = s.modify name f
  | s :: rest, ss', h, s', hs' => by
    unfold modifyIn at h
    split at h
    · cases h
      rcases List.mem_cons.1 hs' with rfl | hs'
      · exact .inr ⟨s, .head _, rfl⟩
      · exact .inl (.tail _ hs')
    · obtain ⟨rest', hrest, rfl⟩ := Option.map_eq_some_iff.1 h
      rcases List.mem_cons.1 hs' with rfl | hs'
      · exact .inl (.head _)
      · rcases holds_of_modifyIn hrest s' hs' with h | ⟨u, hu, h⟩
        · exact .inl (.tail _ h)
        · exact .inr ⟨u, .tail _ hu, h⟩

theorem Holds.of_modify (h : (t.modify name f).Holds e') :
    ∃ e, t.Holds e ∧ (e' = e ∨ e' = f e) := by
  obtain ⟨s', hs', h⟩ := h
  have hscope : s' ∈ t.root :: t.stack ∨ ∃ s ∈ t.root :: t.stack, s' = s.modify name f := by
    unfold modify at hs'
    split at hs'
    · rename_i stack hstack
      rcases List.mem_cons.1 hs' with rfl | hs'
      · exact .inl (.head _)
      · rcases holds_of_modifyIn hstack s' hs' with h | ⟨s, hs, h⟩
        · exact .inl (.tail _ h)
        · exact .inr ⟨s, .tail _ hs, h⟩
    · rcases List.mem_cons.1 hs' with rfl | hs'
      · exact .inr ⟨t.root, .head _, rfl⟩
      · exact .inl (.tail _ hs')
  rcases hscope with hs | ⟨s, hs, rfl⟩
  · exact ⟨e', ⟨s', hs, h⟩, .inl rfl⟩
  · obtain ⟨e, he, h⟩ := h.of_modify
    exact ⟨e, ⟨s, hs, he⟩, h⟩

end Table

/-! ## The first segment of a path -/

namespace Entry

variable {M : Type} {d e : Entry M} {name : Ident}

/-- An enum or a variant, and the entry of one of its values or arms. -/
def Owns (d : Entry M) (name : Ident) (e : Entry M) : Prop :=
  (∃ body, d.kind = .enumDef body ∧ body.entry? name = some e) ∨
    ∃ body, d.kind = .variantDef body ∧ body.entry? name = some e

/-- A definition, and neither a variable nor part of another definition. -/
def Proper (e : Entry M) : Prop :=
  (∀ v, e.kind ≠ .var v) ∧ (∀ owner value, e.kind ≠ .enumValue owner value) ∧
    ∀ owner payload ordinal, e.kind ≠ .variantArm owner payload ordinal

/-- Resolution passes over an entry that has nothing below it. -/
def Passed (d : Entry M) : Prop :=
  (∀ body, d.kind ≠ .moduleDef body) ∧ (∀ body, d.kind ≠ .enumDef body) ∧
    ∀ body, d.kind ≠ .variantDef body

/-- An arm belongs to a variant. -/
theorem Owns.variantArm (h : d.Owns name e) {owner payload ordinal}
    (hk : e.kind = .variantArm owner payload ordinal) : ∃ body, d.kind = .variantDef body ∧
      body.entry? name = some e ∧ body.arms.get? name = some ⟨owner, payload, ordinal, e.loc⟩ := by
  rcases h with ⟨body, -, he⟩ | ⟨body, hbody, he⟩ <;>
    obtain ⟨m, hm, rfl⟩ := Option.map_eq_some_iff.1 he <;> cases hk
  exact ⟨body, hbody, he, hm⟩

theorem Owns.kind_cases (h : d.Owns name e) :
    (∃ owner value, e.kind = .enumValue owner value) ∨
      ∃ owner payload ordinal, e.kind = .variantArm owner payload ordinal := by
  rcases h with ⟨body, -, he⟩ | ⟨body, -, he⟩
  · obtain ⟨v, -, rfl⟩ := Option.map_eq_some_iff.1 he
    exact .inl ⟨_, _, rfl⟩
  · obtain ⟨v, -, rfl⟩ := Option.map_eq_some_iff.1 he
    exact .inr ⟨_, _, _, rfl⟩

theorem Owns.not_proper (h : d.Owns name e) : ¬ e.Proper := by
  rintro ⟨-, hvalue, harm⟩
  rcases h.kind_cases with ⟨owner, value, hk⟩ | ⟨owner, payload, ordinal, hk⟩
  · exact hvalue owner value hk
  · exact harm owner payload ordinal hk

theorem Owns.proper (h : d.Owns name e) : d.Proper := by
  rcases h with ⟨body, hk, -⟩ | ⟨body, hk, -⟩
  all_goals
    refine ⟨?_, ?_, ?_⟩ <;> rw [hk] <;> nofun

theorem Owns.not_var (h : d.Owns name e) (v : Variable) : d.kind ≠ .var v := by
  rcases h with ⟨body, hk, -⟩ | ⟨body, hk, -⟩ <;> rw [hk] <;> nofun

end Entry

/-- Resolution ends at the first segment, goes on in a module or past an entry with nothing below it,
or takes what an enum or a variant owns. -/
theorem Table.resolveBy_cases {M : Type} {bodyOf : M → Table M} {t : Table M} {name rest e}
    (he : t.resolveBy bodyOf (name :: rest) = some e) :
    ∃ d, t.lookup name = some d ∧ (rest = [] ∧ d = e ∨
      (∃ body, d.kind = .moduleDef (some body) ∧ (bodyOf body).resolveBy bodyOf rest = some e) ∨
      (∃ value, rest = [value] ∧ d.Owns value e) ∨
      d.Passed ∧ t.resolveBy bodyOf rest = some e) := by
  unfold resolveBy at he
  split at he
  · cases he
  · rename_i d hd
    refine ⟨d, hd, ?_⟩
    split at he
    · rename_i hrest
      exact .inl ⟨List.isEmpty_iff.1 hrest, Option.some.inj he⟩
    · split at he
      · cases he
      · rename_i body hk
        exact .inr (.inl ⟨body, hk, he⟩)
      · rename_i body hk
        split at he
        · exact .inr (.inr (.inl ⟨_, rfl, .inl ⟨body, hk, he⟩⟩))
        · cases he
      · rename_i body hk
        split at he
        · exact .inr (.inr (.inl ⟨_, rfl, .inr ⟨body, hk, he⟩⟩))
        · cases he
      · rename_i hnone hmodule henum hvariant
        refine .inr (.inr (.inr ⟨⟨fun body hk => ?_, henum, hvariant⟩, he⟩))
        cases body with
        | none => exact hnone hk
        | some body => exact hmodule body hk

/-! ## Lawful tables -/

/-- A function has parameters with different names, and a variant has numbered arms. -/
structure SymbolEntry.Lawful (e : SymbolEntry) : Prop where
  params : ∀ sig, e.kind = .func sig → (sig.params.map (·.name)).Nodup
  arms : ∀ d, e.kind = .variantDef d → d.Numbered e.name

/-- Each function and each variant in a table and in the tables of its modules is lawful. -/
inductive Symbols.Lawful : Symbols → Prop
  | intro {t : Symbols} (own : ∀ e, t.Holds e → SymbolEntry.Lawful e)
      (modules : ∀ e body, t.Holds e → e.kind = .moduleDef (some body) → Lawful body.get) :
    Lawful t

namespace Symbols

variable {t t' : Symbols} {e : SymbolEntry} (h : t.Lawful)

include h

theorem Lawful.entry (he : t.Holds e) : SymbolEntry.Lawful e := by
  cases h with
  | intro own modules => exact own e he

theorem Lawful.module {body : ModuleBody} (he : t.Holds e)
    (hk : e.kind = .moduleDef (some body)) : Lawful body.get := by
  cases h with
  | intro own modules => exact modules e body he hk

/-- A table is lawful if its entries come from a lawful one. -/
theorem Lawful.of_holds (hsub : ∀ e, t'.Holds e → t.Holds e) : t'.Lawful :=
  .intro (fun _ he => h.entry (hsub _ he)) fun _ _ he hk => h.module (hsub _ he) hk

omit h in
theorem lawful_empty : Lawful .empty :=
  .intro (fun _ he => absurd he Table.not_holds_empty) fun _ _ he => absurd he Table.not_holds_empty

theorem Lawful.insert (he : SymbolEntry.Lawful e)
    (hmodule : ∀ body, e.kind = .moduleDef (some body) → Lawful body.get) : Lawful (t.insert e) := by
  refine .intro (fun e' he' => ?_) fun e' body he' hk => ?_
  · rcases he'.of_insert with rfl | he'
    · exact he
    · exact h.entry he'
  · rcases he'.of_insert with rfl | he'
    · exact hmodule body hk
    · exact h.module he' hk

theorem Lawful.withValue (name : Ident) : Lawful (t.modify name .withValue) := by
  have hkind : ∀ e : SymbolEntry, (∃ v, e.withValue.kind = .var v) ∨ e.withValue = e := by
    intro e
    unfold Entry.withValue
    split
    · exact .inl ⟨_, rfl⟩
    · exact .inr rfl
  refine .intro (fun e' he' => ?_) fun e' body he' hk => ?_
  · obtain ⟨e, he, rfl | rfl⟩ := he'.of_modify
    · exact h.entry he
    · rcases hkind e with ⟨v, hv⟩ | hsame
      · exact ⟨by rw [hv]; nofun, by rw [hv]; nofun⟩
      · rw [hsame]
        exact h.entry he
  · obtain ⟨e, he, rfl | rfl⟩ := he'.of_modify
    · exact h.module he hk
    · rcases hkind e with ⟨v, hv⟩ | hsame
      · rw [hv] at hk; cases hk
      · exact h.module he (hsame ▸ hk)

omit h in
/-- A path leads to lawful entries only. -/
theorem Lawful.resolve : ∀ {path : List Ident} {t : Symbols} {e : SymbolEntry}, t.Lawful →
    t.resolve path = some e → SymbolEntry.Lawful e
  | [], _, _, _, he => by cases he
  | name :: rest, t, e, h, he => by
    obtain ⟨d, hd, hcases⟩ := Table.resolveBy_cases he
    have hheld := Table.holds_of_lookup hd
    rcases hcases with ⟨-, rfl⟩ | ⟨body, hk, he⟩ | ⟨value, -, howns⟩ | ⟨-, he⟩
    · exact h.entry hheld
    · exact (h.module hheld hk).resolve he
    · -- values of enums and arms of variants are neither functions nor variants
      rcases howns.kind_cases with ⟨_, _, hk⟩ | ⟨_, _, _, hk⟩
      all_goals exact ⟨by rw [hk]; nofun, by rw [hk]; nofun⟩
    · exact h.resolve he

end Symbols

namespace Analysis

/-- The table of the state is lawful. -/
def State.Lawful (s : State) : Prop := s.table.Lawful

theorem Declared.lawful {e} (h : Declared e) : SymbolEntry.Lawful e := by
  unfold Declared at h
  refine ⟨fun sig hk => ?_, fun d hk => ?_⟩
  · rwa [hk] at h
  · rwa [hk] at h

theorem Declared.not_module {e : SymbolEntry} (h : Declared e) {body} :
    e.kind ≠ .moduleDef body := by
  intro hk
  unfold Declared at h
  rw [hk] at h
  exact h

/-- What statements do to a table keeps it lawful. -/
theorem lawful_kept : Kept State.Lawful State.Lawful where
  report _ hs := hs
  refuse _ _ hs := hs
  value name hs := Symbols.Lawful.withValue hs name
  insert he hs := Symbols.Lawful.insert hs he.lawful fun _ hk => absurd hk he.not_module
  module name loc hr hs := by
    refine Symbols.Lawful.insert hs ⟨nofun, nofun⟩ ?_
    rintro _ ⟨⟩
    exact hr
  enter context hs := Symbols.Lawful.of_holds hs fun _ he => he.of_enter
  exit hs := Symbols.Lawful.of_holds hs fun _ he => he.of_exit
  frame _ _ hs := hs

theorem lawful_init : State.Lawful {} := Symbols.lawful_empty

/-- Arguments in the order of the parameters are the last ones given for each name. -/
theorem InParamOrder.perm {path given} {args : List Node}
    (h : InParamOrder State.Lawful path given args) : args.Perm ((kept given).map (·.value)) := by
  obtain ⟨s, e, sig, hs, he, hk, hnames, horder⟩ := h
  exact ordered_perm_kept ((Symbols.Lawful.resolve hs he).params sig hk) hnames horder

end Analysis

end TreeSema
