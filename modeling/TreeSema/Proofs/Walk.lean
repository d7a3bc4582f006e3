import TreeSema.Proofs.Crossing
import TreeSema.Symbol.Workspace

/-!
# Walks along paths

Resolution goes along a path through the tables of modules and past the entries that have nothing
below them, until it stands in the table where the path ends: there it takes the last segment, or an
enum or a variant and one of its members. So the segments that are passed over do not matter, and the
modules alone lead to the same table.

Aliases are not resolved in this way throughout. The alias that a path leads to is found by a walk,
but its target is written with the modules that stand in front of the path, and a module after a
segment that was passed over is left out. Only where there is none is an alias worth the same however
its path is spelled.

How an entry refers to the body of a module is left open here, as in the definition of the walks.

* `Table.Goes`, `Table.Takes`: the way to the table where a path ends, and what is taken there.
* `Table.resolveBy_eq_some_iff`: resolution is such a walk.
* `Table.canonical_path_resolves`: canonical paths keep their meaning.
* `Symbols.alias_by_canonical_path`: when an alias has the same value under its canonical path.
-/
namespace TreeSema

/-- A value of an enum or an arm of a variant. -/
def Entry.IsMember {M : Type} (e : Entry M) : Prop :=
  (∃ owner value, e.kind = .enumValue owner value) ∨
    ∃ owner payload ordinal, e.kind = .variantArm owner payload ordinal

theorem Entry.Owns.not_isMember {M : Type} {d e : Entry M} {name} (h : d.Owns name e) :
    ¬ d.IsMember := by
  rintro (⟨owner, value, hk⟩ | ⟨owner, payload, ordinal, hk⟩) <;>
    rcases h with ⟨body, hk', -⟩ | ⟨body, hk', -⟩ <;> rw [hk] at hk' <;> cases hk'

/-- Where different modules come out the same in front of a type, it has no names. -/
theorem Ty.eq_or_names_of_qualify {modules modules'} {ty : Ty}
    (h : ty.qualify modules = ty.qualify modules') : modules = modules' ∨ ty.names = [] := by
  have hnames := congrArg Ty.names h
  rw [Ty.names_qualify, Ty.names_qualify] at hnames
  cases hn : ty.names with
  | nil => exact .inr rfl
  | cons name names =>
    rw [hn, List.map_cons, List.map_cons] at hnames
    exact .inl (List.append_cancel_right (List.cons.inj hnames).1)

namespace Table

variable {M : Type} {bodyOf : M → Table M} {t B : Table M} {name : Ident}
  {pre modules path last rest : List Ident} {d e : Entry M} {body : M}

/-! ## The way to the last table -/

variable (bodyOf) in
/-- Along some segments, among them some modules, the walk gets from one table to another. -/
inductive Goes : Table M → (segments modules : List Ident) → Table M → Prop
  | stay {t : Table M} : Goes t [] [] t
  | enter {t B : Table M} {name : Ident} {segments modules : List Ident} {d : Entry M} {body : M}
      (hd : t.lookup name = some d) (hk : d.kind = .moduleDef (some body))
      (onward : Goes (bodyOf body) segments modules B) :
    Goes t (name :: segments) (name :: modules) B
  | past {t B : Table M} {name : Ident} {segments modules : List Ident} {d : Entry M}
      (hd : t.lookup name = some d) (hpassed : d.Passed) (onward : Goes t segments modules B) :
    Goes t (name :: segments) modules B

/-- What is taken from the table where the walk ends: an entry, or a member of an enum or variant. -/
inductive Takes (B : Table M) : List Ident → Entry M → Prop
  | entry {name : Ident} {e : Entry M} (he : B.lookup name = some e) : Takes B [name] e
  | member {owner value} {d e : Entry M} (hd : B.lookup owner = some d)
      (howns : d.Owns value e) : Takes B [owner, value] e

theorem Takes.ne_nil (h : B.Takes last e) : last ≠ [] := by
  cases h <;> simp

theorem Takes.resolveBy (h : B.Takes last e) : B.resolveBy bodyOf last = some e := by
  cases h with
  | entry he => rw [resolveBy_single, he]
  | member hd howns => exact resolveBy_member hd howns

theorem Takes.modulesBy (h : B.Takes last e) : B.modulesBy bodyOf last = [] := by
  cases h with
  | entry he => rfl
  | member hd howns => exact modulesBy_member hd howns

variable (bodyOf) in
/-- The walk along a path ends in a table, where it takes an entry. -/
def EndsIn (t : Table M) (path : List Ident) (B : Table M) (e : Entry M) : Prop :=
  ∃ pre modules last, path = pre ++ last ∧ Goes bodyOf t pre modules B ∧ B.Takes last e

namespace Goes

/-- A path that starts with some segments is resolved in the table that they lead to. -/
theorem resolveBy (h : Goes bodyOf t pre modules B) (hrest : rest ≠ []) :
    t.resolveBy bodyOf (pre ++ rest) = B.resolveBy bodyOf rest := by
  induction h with
  | stay => rfl
  | enter hd hk _ ih => rw [List.cons_append, resolveBy_module hd hk (by simp [hrest]), ih]
  | past hd hpassed _ ih => rw [List.cons_append, resolveBy_past hd hpassed (by simp [hrest]), ih]

theorem modulesBy (h : Goes bodyOf t pre modules B) (hrest : rest ≠ []) :
    t.modulesBy bodyOf (pre ++ rest) = modules ++ B.modulesBy bodyOf rest := by
  induction h with
  | stay => rfl
  | enter hd hk _ ih =>
    rw [List.cons_append, modulesBy_module hd hk (by simp [hrest]), ih, List.cons_append]
  | past hd hpassed _ ih => rw [List.cons_append, modulesBy_past hd hpassed (by simp [hrest]), ih]

/-- The modules on the way are a way of their own, to the same table. -/
theorem straight (h : Goes bodyOf t pre modules B) : Goes bodyOf t modules modules B := by
  induction h with
  | stay => exact .stay
  | enter hd hk _ ih => exact .enter hd hk ih
  | past _ _ _ ih => exact ih

/-- The first module on the way is one of the table where the way starts. -/
theorem first_module {first others} (h : Goes bodyOf t pre (first :: others) B) :
    ∃ d body, t.lookup first = some d ∧ d.kind = .moduleDef (some body) := by
  generalize hmodules : first :: others = modules at h
  induction h with
  | stay => cases hmodules
  | enter hd hk _ _ =>
    cases hmodules
    exact ⟨_, _, hd, hk⟩
  | past _ _ _ ih => exact ih hmodules

/-- The modules in front of a path are those on the way, unless one of these stands behind a segment
that is passed over. -/
theorem leadingBy_eq_iff (h : Goes bodyOf t pre modules B) (last : Ident) :
    t.leadingBy bodyOf pre = modules ↔ modules <+: pre ++ [last] := by
  induction h with
  | stay => simp [leadingBy]
  | @enter t B name segments modules d body hd hk _ ih =>
    obtain ⟨_, _, kind, _⟩ := d
    dsimp only at hk
    subst hk
    rw [leadingBy, hd, List.cons_append, List.cons_prefix_cons, ← ih]
    simp
  | @past t B name segments modules d hd hpassed onward _ =>
    have hleading : t.leadingBy bodyOf (name :: segments) = [] := by
      rw [leadingBy, hd]
      split
      · rename_i hk
        cases hk
        exact absurd rfl (hpassed.1 _)
      · rfl
    rw [hleading]
    cases modules with
    | nil => simp
    | cons first others =>
      obtain ⟨d', body, hd', hk⟩ := onward.first_module
      have hne : first ≠ name := by
        rintro rfl
        cases hd.symm.trans hd'
        exact hpassed.1 _ hk
      simp [hne]

end Goes

/-- Resolution goes to the table where the path ends and takes what it finds there. -/
theorem resolveBy_eq_some_iff : t.resolveBy bodyOf path = some e ↔ ∃ B, EndsIn bodyOf t path B e := by
  constructor
  · intro he
    induction path generalizing t with
    | nil => cases he
    | cons name rest ih =>
      obtain ⟨d, hd, hcases⟩ := resolveBy_cases he
      rcases hcases with ⟨rfl, rfl⟩ | ⟨body, hk, he⟩ | ⟨value, rfl, howns⟩ | ⟨hpassed, he⟩
      · exact ⟨t, [], [], [name], rfl, .stay, .entry hd⟩
      · obtain ⟨B, pre, modules, last, rfl, hgoes, htakes⟩ := ih he
        exact ⟨B, name :: pre, name :: modules, last, rfl, .enter hd hk hgoes, htakes⟩
      · exact ⟨t, [], [], _, rfl, .stay, .member hd howns⟩
      · obtain ⟨B, pre, modules, last, rfl, hgoes, htakes⟩ := ih he
        exact ⟨B, name :: pre, modules, last, rfl, .past hd hpassed hgoes, htakes⟩
  · rintro ⟨B, pre, modules, last, rfl, hgoes, htakes⟩
    rw [hgoes.resolveBy htakes.ne_nil, htakes.resolveBy]

/-- What is no member of an enum or a variant is taken by the last segment. -/
theorem ends_of_resolveBy (he : t.resolveBy bodyOf path = some e) (hmember : ¬ e.IsMember) :
    ∃ pre modules B name, path = pre ++ [name] ∧ Goes bodyOf t pre modules B ∧
      B.lookup name = some e ∧ t.modulesBy bodyOf path = modules ∧
      t.canonicalBy bodyOf path = modules ++ [name] := by
  obtain ⟨B, pre, modules, last, rfl, hgoes, htakes⟩ := resolveBy_eq_some_iff.1 he
  have hmodules := hgoes.modulesBy htakes.ne_nil
  rw [htakes.modulesBy, List.append_nil] at hmodules
  cases htakes with
  | @entry name e he =>
    exact ⟨pre, modules, B, name, rfl, hgoes, he, hmodules, by simp [canonicalBy, hmodules]⟩
  | member hd howns => exact absurd howns.kind_cases hmember

/-! ## Canonical paths -/

/-- Canonical paths keep their meaning. A path that leads to an entry other than a member of an enum
or a variant leads there without the segments that are passed over; if it leads to a member through
the definition that owns it, so do the modules on the way to that, the owner and the member. The
modules of a path lead to the table where its walk ends: whatever follows them is resolved there. -/
theorem canonical_path_resolves (bodyOf : M → Table M) {t : Table M} {path : List Ident} {e : Entry M}
    (he : t.resolveBy bodyOf path = some e) :
    (¬ e.IsMember →
      t.resolveBy bodyOf (t.modulesBy bodyOf path ++ [path.getLastD .missing]) = some e) ∧
    (∀ owner, t.resolveBy bodyOf path.dropLast = some owner →
      owner.Owns (path.getLastD .missing) e →
      t.resolveBy bodyOf (t.modulesBy bodyOf path.dropLast ++ path.drop (path.length - 2)) = some e) ∧
    (∃ B, EndsIn bodyOf t path B e) ∧
    ∀ B, EndsIn bodyOf t path B e → ∀ rest ≠ [],
      t.resolveBy bodyOf (t.modulesBy bodyOf path ++ rest) = B.resolveBy bodyOf rest := by
  refine ⟨fun hmember => ?_, fun owner howner howns => ?_, resolveBy_eq_some_iff.1 he, ?_⟩
  · obtain ⟨pre, modules, B, name, rfl, hgoes, hname, hmodules, -⟩ := ends_of_resolveBy he hmember
    rw [hmodules, List.getLastD_concat, hgoes.straight.resolveBy (by simp), resolveBy_single, hname]
  · obtain ⟨pre, modules, B, name, hinit, hgoes, hname, hmodules, -⟩ :=
      ends_of_resolveBy howner howns.not_isMember
    obtain ⟨value, rfl⟩ : ∃ value, path = pre ++ [name, value] := by
      have hne : path ≠ [] := by
        rintro rfl
        cases he
      have happend := List.dropLast_concat_getLast hne
      rw [hinit] at happend
      exact ⟨path.getLast hne, by simpa using happend.symm⟩
    have hlast : (pre ++ [name, value]).getLastD .missing = value := by simp
    have hdrop : (pre ++ [name, value]).drop ((pre ++ [name, value]).length - 2) = [name, value] := by
      simp
    rw [hmodules, hdrop, hgoes.straight.resolveBy (by simp)]
    exact resolveBy_member hname (hlast ▸ howns)
  · rintro B ⟨pre, modules, last, rfl, hgoes, htakes⟩ rest hrest
    rw [hgoes.modulesBy htakes.ne_nil, htakes.modulesBy, List.append_nil,
      hgoes.straight.resolveBy hrest]

/-- The variant `Shape` and the struct `Point` in the module `geo`, and the variable `v` beside it. -/
def shapes : Symbols :=
  let dots : VariantBody := ⟨.ofList [(.name "Dot", ⟨.name "Shape", .common, 0, {}⟩)], [.name "Dot"]⟩
  let geo : Symbols := (Table.empty.insert (.definition (.name "Shape") (.variantDef dots) {})).insert
    (.definition (.name "Point") (.structDef .empty) {})
  (Table.empty.insert (.definition (.name "geo") (.moduleDef (some (.table geo))) {})).insert
    (.binding (.name "v") ⟨.basic .i32, false, .automatic, true⟩ {})

theorem canonical_path_resolves_shapes :
    let get := ModuleBody.get
    let e := Entry.definition (.name "Dot") (.variantArm (.name "Shape") .common 0) {}
    shapes.resolveBy get [.name "v", .name "geo", .name "Shape", .name "Dot"] = some e ∧
      shapes.resolveBy get [.name "geo", .name "Shape", .name "Dot"] = some e ∧
      ∃ B, EndsIn get shapes [.name "v", .name "geo", .name "Shape", .name "Dot"] B e ∧
        shapes.resolveBy get [.name "geo", .name "Point"] = B.resolveBy get [.name "Point"] := by
  intro get e
  have he : shapes.resolveBy get [.name "v", .name "geo", .name "Shape", .name "Dot"] = some e := by
    rfl
  obtain ⟨-, hmember, ⟨B, hends⟩, hrest⟩ := canonical_path_resolves get he
  exact ⟨he, hmember _ rfl (.inr ⟨_, rfl, rfl⟩), B, hends, hrest B hends _ (by simp)⟩

/-! ## Aliases -/

section Aliases

variable {target : Ty} (he : t.resolveBy bodyOf path = some e) (hk : e.kind = .aliasDef target)

include he hk

/-- The target of an alias is written with the modules in front of its path. -/
theorem aliasStepBy_custom : t.aliasStepBy bodyOf (.custom path)
    = some (t.canonicalBy bodyOf path, target.qualify (t.leadingBy bodyOf path.dropLast)) := by
  obtain ⟨_, _, kind, _⟩ := e
  dsimp only at hk
  subst hk
  simp [aliasStepBy, he]

theorem ends_of_alias : ∃ pre modules B name, path = pre ++ [name] ∧ Goes bodyOf t pre modules B ∧
    B.lookup name = some e ∧ t.modulesBy bodyOf path = modules ∧
    t.canonicalBy bodyOf path = modules ++ [name] := by
  refine ends_of_resolveBy he ?_
  rintro (⟨owner, value, hk'⟩ | ⟨owner, payload, ordinal, hk'⟩) <;>
    · rw [hk] at hk'
      cases hk'

/-- Under its canonical path an alias has a target that is written with all modules of the path. -/
theorem aliasStepBy_canonical : t.aliasStepBy bodyOf (.custom (t.canonicalBy bodyOf path))
    = some (t.canonicalBy bodyOf path, target.qualify (t.modulesBy bodyOf path)) := by
  obtain ⟨pre, modules, B, name, rfl, hgoes, hname, hmodules, hcanonical⟩ := ends_of_alias he hk
  have hstraight := hgoes.straight
  have hresolve : t.resolveBy bodyOf (modules ++ [name]) = some e := by
    rw [hstraight.resolveBy (by simp), resolveBy_single, hname]
  have hleading : t.leadingBy bodyOf modules = modules :=
    (hstraight.leadingBy_eq_iff name).2 (List.prefix_append _ _)
  have hsame : t.canonicalBy bodyOf (modules ++ [name]) = modules ++ [name] := by
    rw [canonicalBy, hstraight.modulesBy (by simp)]
    simp [Table.modulesBy]
  rw [hcanonical, hmodules, aliasStepBy_custom hresolve hk, hsame, List.dropLast_concat, hleading]

/-- Both spellings of an alias have the same target just if no module stands behind a segment that is
passed over, or there is no name to be written with it. -/
theorem aliasStepBy_eq_canonical_iff :
    t.aliasStepBy bodyOf (.custom path) = t.aliasStepBy bodyOf (.custom (t.canonicalBy bodyOf path)) ↔
      t.modulesBy bodyOf path <+: path ∨ target.names = [] := by
  rw [aliasStepBy_custom he hk, aliasStepBy_canonical he hk]
  obtain ⟨pre, modules, B, name, rfl, hgoes, -, hmodules, -⟩ := ends_of_alias he hk
  rw [hmodules, List.dropLast_concat, ← hgoes.leadingBy_eq_iff name]
  constructor
  · intro hsteps
    exact Ty.eq_or_names_of_qualify (Prod.mk.inj (Option.some.inj hsteps)).2
  · rintro (hleading | hnames)
    · rw [hleading]
    · rw [Ty.qualify_of_names (.inr hnames), Ty.qualify_of_names (.inr hnames)]

end Aliases

end Table

namespace Symbols

/-- What an alias stands for depends on its target alone. -/
theorem aliasValue?_congr {t : Symbols} {ty ty'} (h : t.aliasStep? ty = t.aliasStep? ty') :
    t.aliasStep? ty = none ∨ t.aliasValue? ty = t.aliasValue? ty' := by
  cases hstep : t.aliasStep? ty with
  | none => exact .inl rfl
  | some step => exact .inr (by simp [aliasValue?, Alias.follow, ← h, hstep])

/-- An alias that is found by a path is found by its canonical path, where its target is written with
exactly the modules that the path goes through. Under the path itself the target is the same just if
these modules are the first segments of the path, or the target has no names; then the alias stands
for the same type in the end. -/
theorem alias_by_canonical_path {t : Symbols} {path : List Ident} {e : SymbolEntry} {target : Ty}
    (he : t.resolve path = some e) (hk : e.kind = .aliasDef target) :
    t.aliasStep? (.custom (t.canonical path))
      = some (t.canonical path, target.qualify (t.modulesOf path)) ∧
    (t.aliasStep? (.custom path) = t.aliasStep? (.custom (t.canonical path)) ↔
      t.modulesOf path <+: path ∨ target.names = []) ∧
    (t.modulesOf path <+: path ∨ target.names = [] →
      t.aliasValue? (.custom path) = t.aliasValue? (.custom (t.canonical path))) := by
  have hiff := Table.aliasStepBy_eq_canonical_iff he hk
  refine ⟨Table.aliasStepBy_canonical he hk, hiff, fun hsame => ?_⟩
  refine (aliasValue?_congr (hiff.2 hsame)).resolve_left fun hnone => ?_
  rw [show t.aliasStep? (.custom path) = _ from Table.aliasStepBy_custom he hk] at hnone
  cases hnone

/-- An alias `A` of the struct `S` in the module `m`, and the variable `v` beside the module. -/
def aliased : Symbols :=
  let m : Symbols := (Table.empty.insert (.definition (.name "S") (.structDef .empty) {})).insert
    (.definition (.name "A") (.aliasDef (.custom [.name "S"])) {})
  (Table.empty.insert (.definition (.name "m") (.moduleDef (some (.table m))) {})).insert
    (.binding (.name "v") ⟨.basic .i32, false, .automatic, true⟩ {})

/-- A value behind the module is passed over on both ways. -/
theorem alias_by_canonical_path_aliased :
    aliased.modulesOf [.name "m", .name "S", .name "A"] <+: [.name "m", .name "S", .name "A"] ∧
      aliased.aliasValue? (.custom [.name "m", .name "S", .name "A"])
        = aliased.aliasValue? (.custom [.name "m", .name "A"]) := by
  have he : aliased.resolve [.name "m", .name "S", .name "A"]
      = some (.definition (.name "A") (.aliasDef (.custom [.name "S"])) {}) := rfl
  have hmodules : aliased.modulesOf [.name "m", .name "S", .name "A"] = [.name "m"] := rfl
  have hleading : aliased.modulesOf [.name "m", .name "S", .name "A"]
      <+: [.name "m", .name "S", .name "A"] := ⟨_, by rw [hmodules]; rfl⟩
  exact ⟨hleading, (alias_by_canonical_path he rfl).2.2 (.inl hleading)⟩

/-- With a value in front of its module, an alias is found, but its target is not written with the
module. -/
theorem alias_behind_value :
    aliased.aliasValue? (.custom [.name "v", .name "m", .name "A"]) = some (.custom [.name "S"]) ∧
      aliased.aliasValue? (.custom (aliased.canonical [.name "v", .name "m", .name "A"]))
        = some (.custom [.name "m", .name "S"]) := by
  decide +kernel

end Symbols

end TreeSema
