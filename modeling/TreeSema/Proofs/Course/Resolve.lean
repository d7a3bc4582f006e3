import TreeSema.Proofs.Sound

/-!
# Paths in the middle of a run and at its end

A path is resolved while scopes are open, and variables may stand in the way of the definitions
further out. What is written in its place is the canonical path: the modules that resolution goes
through and the last segment. Whatever happens afterwards, the canonical path leads to the same
definition in the finished table.

* `Symbols.Finds`: the walk along a path, one constructor for each way to take a segment.
* `Symbols.tableAt?`, `Finds.home`: the table that modules lead to, and where what a path leads to is
  declared.
* `Finds.in_finished`: where a definition that a path leads to is found in the end.
* `Finds.owner`: a value of an enum or an arm of a variant is found through the definition that owns
  it.
* `Finds.touched`: giving values to variables changes nothing about where paths lead.
-/
namespace TreeSema

namespace Table

variable {M : Type} {bodyOf : M → Table M} {t : Table M} {name : Ident} {rest : List Ident}
  {d e : Entry M} {body : M}

/-! ## One segment of a path -/

theorem resolveBy_single (t : Table M) (name : Ident) : t.resolveBy bodyOf [name] = t.lookup name := by
  unfold resolveBy
  cases t.lookup name <;> rfl

theorem resolveBy_module (hd : t.lookup name = some d) (hk : d.kind = .moduleDef (some body))
    (hrest : rest ≠ []) : t.resolveBy bodyOf (name :: rest) = (bodyOf body).resolveBy bodyOf rest := by
  conv => lhs; unfold resolveBy
  simp [hd, hk, hrest]

theorem resolveBy_member {value} (hd : t.lookup name = some d) (howns : d.Owns value e) :
    t.resolveBy bodyOf [name, value] = some e := by
  unfold resolveBy
  rcases howns with ⟨body, hk, he⟩ | ⟨body, hk, he⟩ <;> simp [hd, hk, he]

theorem resolveBy_past (hd : t.lookup name = some d) (hpassed : d.Passed) (hrest : rest ≠ []) :
    t.resolveBy bodyOf (name :: rest) = t.resolveBy bodyOf rest := by
  obtain ⟨hmodule, henum, hvariant⟩ := hpassed
  conv => lhs; unfold resolveBy
  simp only [hd, List.isEmpty_iff, hrest, if_false]
  split
  · exact absurd ‹_› (hmodule _)
  · exact absurd ‹_› (hmodule _)
  · exact absurd ‹_› (henum _)
  · exact absurd ‹_› (hvariant _)
  · rfl

theorem modulesBy_module (hd : t.lookup name = some d) (hk : d.kind = .moduleDef (some body))
    (hrest : rest ≠ []) :
    t.modulesBy bodyOf (name :: rest) = name :: (bodyOf body).modulesBy bodyOf rest := by
  conv => lhs; unfold modulesBy
  simp [hd, hk, hrest]

theorem modulesBy_member {value} (hd : t.lookup name = some d) (howns : d.Owns value e) :
    t.modulesBy bodyOf [name, value] = [] := by
  unfold modulesBy
  rcases howns with ⟨body, hk, -⟩ | ⟨body, hk, -⟩ <;> simp [hd, hk]

theorem modulesBy_past (hd : t.lookup name = some d) (hpassed : d.Passed) (hrest : rest ≠ []) :
    t.modulesBy bodyOf (name :: rest) = t.modulesBy bodyOf rest := by
  obtain ⟨hmodule, henum, hvariant⟩ := hpassed
  conv => lhs; unfold modulesBy
  simp only [hd, List.isEmpty_iff, hrest, if_false]
  split
  · exact absurd ‹_› (hmodule _)
  · exact absurd ‹_› (hmodule _)
  · exact absurd ‹_› (henum _)
  · exact absurd ‹_› (hvariant _)
  · rfl

end Table

namespace Symbols

/-! ## Walks along paths -/

variable {t t' : Symbols} {path rest : List Ident} {e d : SymbolEntry} {name : Ident}
  {body : ModuleBody}

/-- A path leads to an entry. -/
inductive Finds : Symbols → List Ident → SymbolEntry → Prop
  | here {t : Symbols} {name} {e : SymbolEntry} (hd : t.lookup name = some e) :
    Finds t [name] e
  | module {t : Symbols} {name rest} {d e : SymbolEntry} {body : ModuleBody}
      (hd : t.lookup name = some d) (hk : d.kind = .moduleDef (some body))
      (hrest : Finds body.get rest e) : Finds t (name :: rest) e
  | member {t : Symbols} {name value} {d e : SymbolEntry} (hd : t.lookup name = some d)
      (howns : d.Owns value e) : Finds t [name, value] e
  | past {t : Symbols} {name rest} {d e : SymbolEntry}
      (hd : t.lookup name = some d) (hpassed : d.Passed) (hrest : Finds t rest e) :
    Finds t (name :: rest) e

theorem Finds.ne_nil (h : t.Finds path e) : path ≠ [] := by
  cases h <;> simp

/-- Resolution walks along a path. -/
theorem finds_of_resolve : ∀ {path : List Ident} {t : Symbols} {e : SymbolEntry},
    t.resolve path = some e → t.Finds path e
  | [], _, _, he => by cases he
  | name :: rest, t, e, he => by
    obtain ⟨d, hd, hcases⟩ := Table.resolveBy_cases he
    rcases hcases with ⟨rfl, rfl⟩ | ⟨body, hk, he⟩ | ⟨value, rfl, howns⟩ | ⟨hpassed, he⟩
    · exact .here hd
    · exact .module hd hk (finds_of_resolve he)
    · exact .member hd howns
    · exact .past hd hpassed (finds_of_resolve he)

theorem resolve_module (hd : t.lookup name = some d) (hk : d.kind = .moduleDef (some body))
    (hrest : rest ≠ []) : t.resolve (name :: rest) = Symbols.resolve body.get rest :=
  Table.resolveBy_module hd hk hrest

theorem resolve_single (t : Symbols) (name : Ident) : t.resolve [name] = t.lookup name :=
  Table.resolveBy_single t name

theorem resolve_over (hd : t.lookup name = some d) (hpassed : d.Passed) (hrest : rest ≠ []) :
    t.resolve (name :: rest) = t.resolve rest := Table.resolveBy_past hd hpassed hrest

/-- A walk along a path is one that resolution takes. -/
theorem Finds.resolve (h : t.Finds path e) : t.resolve path = some e := by
  induction h with
  | here hd => rw [resolve_single, hd]
  | module hd hk hrest ih => rw [resolve_module hd hk hrest.ne_nil, ih]
  | member hd howns => exact Table.resolveBy_member hd howns
  | past hd hpassed hrest ih => rw [resolve_over hd hpassed hrest.ne_nil, ih]

/-! The modules that resolution goes through. -/

theorem modulesOf_module (hd : t.lookup name = some d) (hk : d.kind = .moduleDef (some body))
    (hrest : rest ≠ []) : t.modulesOf (name :: rest) = name :: modulesOf body.get rest :=
  Table.modulesBy_module hd hk hrest

theorem modulesOf_over (hd : t.lookup name = some d) (hpassed : d.Passed) (hrest : rest ≠ []) :
    t.modulesOf (name :: rest) = t.modulesOf rest := Table.modulesBy_past hd hpassed hrest

theorem modulesOf_member {value} (hd : t.lookup name = some d) (howns : d.Owns value e) :
    t.modulesOf [name, value] = [] :=
  Table.modulesBy_member hd howns

theorem canonical_eq (t : Symbols) (hpath : path ≠ []) :
    t.canonical path = t.modulesOf path ++ [path.getLastD .missing] := by
  obtain ⟨name, rest, rfl⟩ := List.exists_cons_of_ne_nil hpath
  unfold canonical Table.canonicalBy
  rw [List.getLast?_cons, List.getLastD_cons, List.getLastD_eq_getLast?]
  rfl

theorem getLastD_cons_of_ne_nil (hrest : rest ≠ []) :
    (name :: rest).getLastD .missing = rest.getLastD .missing := by
  cases rest with
  | nil => exact absurd rfl hrest
  | cons => rfl

/-! ## Tables of modules -/

/-- The table that modules lead to. -/
def tableAt? (t : Symbols) : List Ident → Option Symbols
  | [] => some t
  | name :: rest =>
    match t.lookup name with
    | some ⟨_, _, .moduleDef (some body), _⟩ => tableAt? body.get rest
    | _ => none

theorem tableAt?_module
    (hd : t.lookup name = some d) (hk : d.kind = .moduleDef (some body)) (rest : List Ident) :
    t.tableAt? (name :: rest) = tableAt? body.get rest := by
  obtain ⟨_, _, kind, _⟩ := d
  dsimp only at hk
  subst hk
  rw [tableAt?, hd]

/-- A path that starts with modules is resolved in the table that they lead to. -/
theorem resolve_tableAt? : ∀ {modules : List Ident} {t B : Symbols}, t.tableAt? modules = some B →
    ∀ {path : List Ident}, path ≠ [] → t.resolve (modules ++ path) = B.resolve path
  | [], _, _, hB, _, _ => by
    cases hB
    rfl
  | name :: rest, t, B, hB, path, hpath => by
    unfold tableAt? at hB
    split at hB
    · rename_i body _ hd
      rw [List.cons_append, resolve_module hd rfl (by simp [hpath])]
      exact resolve_tableAt? hB hpath
    · cases hB

/-- What a path leads to and no enum or variant owns is declared in the table that the modules of the
path lead to. -/
theorem Finds.home (h : t.Finds path e)
    (he : ∀ d name, ¬ Entry.Owns d name e) : ∃ B, t.tableAt? (t.modulesOf path) = some B ∧
      B.lookup (path.getLastD .missing) = some e := by
  induction h with
  | here hd => exact ⟨_, rfl, hd⟩
  | @module t name rest d e body hd hk hrest ih =>
    rw [modulesOf_module hd hk hrest.ne_nil, tableAt?_module hd hk,
      getLastD_cons_of_ne_nil hrest.ne_nil]
    exact ih he
  | member hd howns => exact absurd howns (he _ _)
  | @past t name rest d e hd hpassed hrest ih =>
    rw [modulesOf_over hd hpassed hrest.ne_nil, getLastD_cons_of_ne_nil hrest.ne_nil]
    exact ih he

/-! ## Values of variables do not matter -/

/-- A name stands for the same entry, or for a variable in both tables. -/
theorem Touched.lookup_cases (ht : t.Touched t') (name : Ident) : t.lookup name = t'.lookup name ∨
      ∃ d d' v v', t.lookup name = some d ∧ t'.lookup name = some d' ∧ d.kind = .var v ∧
        d'.kind = .var v' := by
  have hrel := Table.Rel.lookup Entry.Touched.matching ht name
  generalize t.lookup name = x, t'.lookup name = y at hrel ⊢
  cases hrel with
  | none => exact .inl rfl
  | @some d d' htouched =>
    by_cases hvar : ∃ v, d.kind = .var v
    · obtain ⟨v, hv⟩ := hvar
      obtain ⟨v', hv'⟩ := htouched.var hv
      exact .inr ⟨d, d', v, v', rfl, rfl, hv, hv'⟩
    · exact .inl (by rw [htouched.eq (not_exists.1 hvar)])

theorem Touched.lookup_iff (ht : t.Touched t') (hvar : ∀ v, d.kind ≠ .var v) :
    t.lookup name = some d ↔ t'.lookup name = some d := by
  rcases ht.lookup_cases name with heq | ⟨d₁, d₂, v₁, v₂, hd₁, hd₂, hv₁, hv₂⟩
  · rw [heq]
  · rw [hd₁, hd₂, Option.some_inj, Option.some_inj]
    constructor
    · rintro rfl
      exact absurd hv₁ (hvar v₁)
    · rintro rfl
      exact absurd hv₂ (hvar v₂)

theorem passed_of_var {v} (hv : d.kind = .var v) : d.Passed := by
  refine ⟨?_, ?_, ?_⟩ <;> intro body <;> rw [hv] <;> nofun

/-- A path that leads to a definition led there before variables got values. -/
theorem Finds.touched (h : t'.Finds path e)
    (ht : t.Touched t') (hvar : ∀ v, e.kind ≠ .var v) : t.Finds path e := by
  induction h with
  | here hd => exact .here ((ht.lookup_iff hvar).2 hd)
  | module hd hk hrest => exact .module ((ht.lookup_iff (by rw [hk]; nofun)).2 hd) hk hrest
  | member hd howns => exact .member ((ht.lookup_iff howns.not_var).2 hd) howns
  | @past t' name rest d e hd hpassed hrest ih =>
    rcases ht.lookup_cases name with heq | ⟨d₀, d', v, v', hd₀, -, hv, -⟩
    · exact .past (heq.trans hd) hpassed (ih ht hvar)
    · exact .past hd₀ (passed_of_var hv) (ih ht hvar)

/-- A path goes through the same modules after variables got values. -/
theorem Finds.modulesOf_touched
    (h : t.Finds path e) (ht : t.Touched t') : t'.modulesOf path = t.modulesOf path := by
  induction h with
  | here hd => rfl
  | module hd hk hrest =>
    have hd' := (ht.lookup_iff (by rw [hk]; nofun)).1 hd
    rw [modulesOf_module hd hk hrest.ne_nil, modulesOf_module hd' hk hrest.ne_nil]
  | member hd howns =>
    have hd' := (ht.lookup_iff howns.not_var).1 hd
    rw [modulesOf_member hd howns, modulesOf_member hd' howns]
  | @past t name rest d e hd hpassed hrest ih =>
    rcases ht.lookup_cases name with heq | ⟨d₀, d', v, v', hd₀, hd', hv, hv'⟩
    · rw [modulesOf_over hd hpassed hrest.ne_nil, modulesOf_over (heq ▸ hd) hpassed hrest.ne_nil,
        ih ht]
    · rw [modulesOf_over hd hpassed hrest.ne_nil,
        modulesOf_over hd' (passed_of_var hv') hrest.ne_nil, ih ht]

/-! ## Finished tables -/

/-- A finished table in which everything is defined that another table defines. -/
structure Completes (T t : Symbols) : Prop where
  sound : T.Sound
  stack : T.stack = []
  defines : ∀ e, t.Defines e → T.Defines e

theorem Completes.self {T : Symbols} (hsound : T.Sound) (hstack : T.stack = []) : T.Completes T :=
  ⟨hsound, hstack, fun _ => id⟩

/-- A definition has its name in the finished table, whatever stood in front of it before. -/
theorem Completes.lookup {T : Symbols} (h : T.Completes t) (ht : t.Sound)
    (he : t.lookup name = some e) (hvar : ∀ v, e.kind ≠ .var v) : T.lookup name = some e := by
  have hdefined := h.defines e (ht.defines_of_holds (Table.holds_of_lookup he) hvar)
  rw [Table.lookup_of_stack h.stack, ← Table.name_of_lookup he]
  exact h.sound.apart.root_get? h.stack hdefined

/-- A table is the given one or that of a module in it, at any depth. -/
inductive Within : Symbols → Symbols → Prop
  | refl (t : Symbols) : Within t t
  | module {t B : Symbols} {e : SymbolEntry} {body : ModuleBody} (he : t.Holds e)
      (hk : e.kind = .moduleDef (some body)) (hB : Within body.get B) : Within t B

/-- A definition that a path leads to stands in a finished table, and the modules on the way to it
lead to that table in the end. -/
theorem Finds.in_finished (h : t.Finds path e) :
    ∀ {T : Symbols}, T.Completes t → t.Sound → e.Proper →
      ∃ B, Within T B ∧ B.Sound ∧ B.stack = [] ∧ B.lookup (path.getLastD .missing) = some e ∧
        ∀ name, T.resolve (t.modulesOf path ++ [name]) = B.lookup name := by
  induction h with
  | @here t name e hd =>
    intro T hT ht hproper
    exact ⟨T, .refl T, hT.sound, hT.stack, hT.lookup ht hd hproper.1, fun x => resolve_single T x⟩
  | @module t name rest d e body hd hk hrest ih =>
    intro T hT ht hproper
    have hheld := Table.holds_of_lookup hd
    have hbody := ht.module hheld hk
    obtain ⟨B, hB, hsound, hstack, hlast, hresolve⟩ :=
      ih (.self hbody (ht.closed hheld hk)) hbody hproper
    have hdT : T.lookup name = some d := hT.lookup ht hd (by rw [hk]; nofun)
    refine ⟨B, .module (Table.holds_of_lookup hdT) hk hB, hsound, hstack, ?_, fun x => ?_⟩
    · rw [getLastD_cons_of_ne_nil hrest.ne_nil, hlast]
    · rw [modulesOf_module hd hk hrest.ne_nil, List.cons_append,
        resolve_module hdT hk (by simp), hresolve]
  | member hd howns => exact fun _ _ hproper => absurd hproper howns.not_proper
  | @past t name rest d e hd hpassed hrest ih =>
    intro T hT ht hproper
    rw [modulesOf_over hd hpassed hrest.ne_nil, getLastD_cons_of_ne_nil hrest.ne_nil]
    exact ih hT ht hproper

/-- What is owned by an enum or a variant is found through it. -/
theorem Finds.owner (h : t.Finds path e) :
    t.Sound → ¬ e.Regular → ∃ d, t.Finds path.dropLast d ∧ d.Owns (path.getLastD .missing) e := by
  induction h with
  | here hd => exact fun ht hirregular => absurd (ht.regular (Table.holds_of_lookup hd)) hirregular
  | @module t name rest d e body hd hk hrest ih =>
    intro ht hirregular
    obtain ⟨owner, howner, howns⟩ := ih (ht.module (Table.holds_of_lookup hd) hk) hirregular
    rw [List.dropLast_cons_of_ne_nil hrest.ne_nil, getLastD_cons_of_ne_nil hrest.ne_nil]
    exact ⟨owner, .module hd hk howner, howns⟩
  | member hd howns => exact fun _ _ => ⟨_, .here hd, howns⟩
  | @past t name rest d e hd hpassed hrest ih =>
    intro ht hirregular
    obtain ⟨owner, howner, howns⟩ := ih ht hirregular
    rw [List.dropLast_cons_of_ne_nil hrest.ne_nil, getLastD_cons_of_ne_nil hrest.ne_nil]
    exact ⟨owner, .past hd hpassed howner, howns⟩

end Symbols

end TreeSema
