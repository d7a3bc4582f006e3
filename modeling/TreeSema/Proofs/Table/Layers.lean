import TreeSema.Proofs.Scopes

/-!
# Tables as stacks of ordered maps

A scope keeps static entries apart from the others, and the order of its names apart from both. Who
uses a table sees less: a stack of maps from names to entries, each in the order in which its names
were first bound. `Layers` is such a stack, with the operations of a table said on it: an entry takes
the place of the one that has its name, and a scope that is closed hands on its static entries one by
one.

`Scope.Shows` relates a scope to a map. Every operation keeps a table and a stack related, scope by
scope; so a table that is made by any operations cannot be told from the stack that is made by the
same ones.

* `Scope.Shows.put`, `Scope.Shows.statics`: one scope.
* `Table.Shows.apply`: one operation.
* `Table.run_shows`: any operations, from the empty table.
-/
namespace TreeSema

variable {M : Type}

/-! ## Operations -/

/-- What can be done to a table. -/
inductive Table.Op (M : Type) where
  | insert (e : Entry M)
  | enter (context : Context)
  | exit
  | withSafety (safety : Safety)

/-- Carries out one operation. -/
def Table.apply (t : Table M) : Op M → Table M
  | .insert e => t.insert e
  | .enter context => t.enter context
  | .exit => t.exit
  | .withSafety safety => t.withSafety safety

/-- Carries out operations one after the other. -/
def Table.run (t : Table M) (ops : List (Op M)) : Table M := ops.foldl apply t

/-! ## Stacks of maps -/

/-- What a scope binds, and where it stands. -/
structure Layer (M : Type) where
  bindings : OrderedMap (Entry M)
  context : Context

namespace Layer

def empty (context : Context) : Layer M := ⟨.empty, context⟩

/-- Binds the name of an entry to it; a name that is bound already keeps its place. -/
def bind (l : Layer M) (e : Entry M) : Layer M := { l with bindings := l.bindings.set e.name e }

/-- The static entries, in the order of their names. -/
def statics (l : Layer M) : List (Entry M) := (l.bindings.entries.map (·.2)).filter (·.static)

end Layer

/-- The innermost of a stack of maps, and those around it. -/
structure Layers (M : Type) where
  inner : Layer M
  outer : List (Layer M)

namespace Layers

/-- The maps of a stack, the innermost first. -/
def all (l : Layers M) : List (Layer M) := l.inner :: l.outer

/-- A stack with one empty map, which is safe. -/
def empty : Layers M := ⟨.empty { safety := .safe }, []⟩

def insert (l : Layers M) (e : Entry M) : Layers M := { l with inner := l.inner.bind e }

/-- Puts an empty map on top; it takes the safety of the one below if it is to inherit it. -/
def enter (l : Layers M) (context : Context) : Layers M :=
  let safety := if context.safety = .inherited then l.inner.context.safety else context.safety
  ⟨.empty { context with safety }, l.all⟩

/-- Takes the innermost map off and binds its static entries in the next one, in order. The last map
stays. -/
def exit (l : Layers M) : Layers M :=
  match l.outer with
  | [] => l
  | around :: rest => ⟨l.inner.statics.foldl Layer.bind around, rest⟩

/-- Sets the safety of the innermost map. -/
def withSafety (l : Layers M) (safety : Safety) : Layers M :=
  let around : Safety := (l.outer.head?.map (·.context.safety)).getD .safe
  let safety := if safety = .inherited then around else safety
  { l with inner := { l.inner with context := { l.inner.context with safety } } }

/-- The last map, around all others. -/
def root (l : Layers M) : Layer M := l.outer.getLastD l.inner

/-- The entry that the innermost map that binds a name has for it. -/
def lookup (l : Layers M) (name : Ident) : Option (Entry M) :=
  l.all.findSome? (·.bindings.get? name)

def apply (l : Layers M) : Table.Op M → Layers M
  | .insert e => l.insert e
  | .enter context => l.enter context
  | .exit => l.exit
  | .withSafety safety => l.withSafety safety

def run (l : Layers M) (ops : List (Table.Op M)) : Layers M := ops.foldl apply l

end Layers

/-! ## One scope -/

namespace Scope

namespace Orderly

variable {s : Scope M} {name : Ident} {e : Entry M}

/-- A name is found among the static entries if it stands for one. -/
theorem find?_persistent (h : s.Orderly) :
    find? name s.persistent = some e ↔ s.get? name = some e ∧ e.static = true := by
  constructor
  · intro he
    have hmem := List.mem_of_find?_eq_some he
    refine ⟨?_, h.static e hmem⟩
    rw [← name_of_find? he]
    exact h.get?_eq (.inr hmem)
  · rintro ⟨he, hstatic⟩
    rcases (Option.orElse_eq_some _ _ _).1 he with he | ⟨-, he⟩
    · exact he
    · rw [h.passing e (List.mem_of_find?_eq_some he)] at hstatic
      cases hstatic

/-- A name is found among the other entries if it stands for one. -/
theorem find?_transient (h : s.Orderly) :
    find? name s.transient = some e ↔ s.get? name = some e ∧ e.static = false := by
  constructor
  · intro he
    have hmem := List.mem_of_find?_eq_some he
    refine ⟨?_, h.passing e hmem⟩
    rw [← name_of_find? he]
    exact h.get?_eq (.inl hmem)
  · rintro ⟨he, hpassing⟩
    rcases (Option.orElse_eq_some _ _ _).1 he with he | ⟨-, he⟩
    · rw [h.static e (List.mem_of_find?_eq_some he)] at hpassing
      cases hpassing
    · exact he

end Orderly

/-- A scope holds what a map binds: each name once, under its entry and in its place, and no safety
is left to be inherited. -/
structure Shows (s : Scope M) (l : Layer M) : Prop where
  orderly : s.Orderly
  entry : ∀ name, s.get? name = l.bindings.get? name
  order : s.order = l.bindings.keys
  context : s.context = l.context
  safety : s.context.safety ≠ .inherited

variable {s : Scope M} {l : Layer M}

theorem shows_empty {context : Context} (h : context.safety ≠ .inherited) :
    (empty context : Scope M).Shows (.empty context) where
  orderly := orderly_empty context
  entry _ := rfl
  order := rfl
  context := rfl
  safety := h

/-- An entry takes the place of the one that has its name, or stands behind all others. -/
theorem Shows.put (h : s.Shows l) (e : Entry M) : (s.put e).Shows (l.bind e) where
  orderly := h.orderly.put e
  entry name := by
    rw [Layer.bind, OrderedMap.get?_set]
    by_cases hn : name = e.name
    · rw [if_pos hn, hn, get?_put_self]
    · rw [if_neg hn, get?_put_of_ne s hn, h.entry]
  order := by
    have hbound : (s.get? e.name).isSome ↔ e.name ∈ l.bindings.keys := by
      rw [h.entry, OrderedMap.get?_isSome_iff]
    dsimp only [Scope.put, Layer.bind]
    split
    · rename_i hsome
      rw [OrderedMap.keys_set_of_mem e (hbound.1 hsome), h.order]
    · rename_i hnone
      rw [OrderedMap.keys_set e (fun hmem => hnone (hbound.2 hmem)), h.order]
  context := h.context
  safety := h.safety

/-- What a scope hands on when it is closed are the static entries of the map, in order. -/
theorem Shows.statics (h : s.Shows l) : s.statics = l.statics := by
  have hfind : ∀ p ∈ l.bindings.entries,
      find? p.1 s.persistent = Option.guard (·.static) p.2 := by
    intro p hp
    have hget : s.get? p.1 = some p.2 := (h.entry _).trans (OrderedMap.get?_eq_some_iff.2 hp)
    cases hstatic : p.2.static with
    | true => rw [h.orderly.find?_persistent.2 ⟨hget, hstatic⟩, Option.guard, if_pos hstatic]
    | false =>
      rw [Option.guard, if_neg (by simp [hstatic])]
      refine Option.eq_none_iff_forall_ne_some.2 fun e he => ?_
      obtain ⟨he, htrue⟩ := h.orderly.find?_persistent.1 he
      cases hget.symm.trans he
      rw [hstatic] at htrue
      cases htrue
  unfold Scope.statics Layer.statics
  rw [h.order, OrderedMap.keys, List.filterMap_map, ← List.filterMap_eq_filter, List.filterMap_map]
  exact List.filterMap_congr hfind

theorem Shows.foldl_put (h : s.Shows l) (es : List (Entry M)) :
    (es.foldl Scope.put s).Shows (es.foldl Layer.bind l) := by
  induction es generalizing s l with
  | nil => exact h
  | cons e es ih => exact ih (h.put e)

/-- The entries of a scope are those of the map, in order. -/
theorem Shows.entries (h : s.Shows l) : s.entries = l.bindings.entries.map (·.2) := by
  unfold Scope.entries
  rw [h.order, OrderedMap.keys, List.filterMap_map, ← List.filterMap_eq_map]
  exact List.filterMap_congr fun p hp => (h.entry _).trans (OrderedMap.get?_eq_some_iff.2 hp)

theorem Shows.withSafety (h : s.Shows l) {safety} (hsafety : safety ≠ .inherited) :
    Scope.Shows { s with context := { s.context with safety } }
      { l with context := { l.context with safety } } where
  orderly := ⟨h.orderly.static, h.orderly.passing, h.orderly.order, h.orderly.nodup⟩
  entry := h.entry
  order := h.order
  context := by rw [h.context]
  safety := hsafety

end Scope

/-! ## Tables -/

namespace Table

variable {t : Table M} {l : Layers M}

/-- A table holds what a stack of maps binds, scope by scope. -/
def Shows (t : Table M) (l : Layers M) : Prop := List.Forall₂ Scope.Shows t.scopes l.all

theorem shows_empty : (empty : Table M).Shows .empty := .cons (Scope.shows_empty (by decide)) .nil

/-- The innermost scope and the innermost map, and what is around them. -/
theorem Shows.inner (h : t.Shows l) : t.current.Shows l.inner ∧
    ∃ outer, t.scopes = t.current :: outer ∧ List.Forall₂ Scope.Shows outer l.outer ∧
      ∀ f : Scope M → Scope M, (t.modifyCurrent f).scopes = f t.current :: outer := by
  obtain ⟨outer, hscopes, hmodify⟩ := t.scopes_eq_cons
  unfold Shows Layers.all at h
  rw [hscopes] at h
  obtain ⟨hinner, houter⟩ := List.forall₂_cons.1 h
  exact ⟨hinner, outer, hscopes, houter, hmodify⟩

theorem Shows.insert (h : t.Shows l) (e : Entry M) : (t.insert e).Shows (l.insert e) := by
  obtain ⟨hinner, outer, -, houter, hmodify⟩ := h.inner
  unfold Shows Table.insert
  rw [hmodify]
  exact .cons (hinner.put e) houter

theorem Shows.enter (h : t.Shows l) (context : Context) :
    (t.enter context).Shows (l.enter context) := by
  have hinner := h.inner.1
  unfold Table.enter Layers.enter
  dsimp only
  rw [← hinner.context]
  refine .cons (Scope.shows_empty ?_) h
  dsimp only
  split
  · exact hinner.safety
  · assumption

theorem scopes_foldl_insert (es : List (Entry M)) {t : Table M} {s outer}
    (h : t.scopes = s :: outer) :
    (es.foldl Table.insert t).scopes = es.foldl Scope.put s :: outer := by
  induction es generalizing t s with
  | nil => exact h
  | cons e es ih =>
    obtain ⟨outer', hscopes, hmodify⟩ := t.scopes_eq_cons
    cases hscopes.symm.trans h
    exact ih (hmodify _)

/-- The scope that is closed hands its static entries on to the one around it, one by one. -/
theorem scopes_exit {t : Table M} {s around : Scope M} {outer} (h : t.scopes = s :: around :: outer)
    : t.exit.scopes = s.statics.foldl Scope.put around :: outer := by
  obtain ⟨root, stack⟩ := t
  cases stack with
  | nil => cases h
  | cons top rest =>
    obtain ⟨rfl, hrest⟩ := List.cons.inj h
    exact scopes_foldl_insert top.statics (t := ⟨root, rest⟩) hrest

/-- The root scope is not closed. -/
theorem exit_of_single {t : Table M} {s} (h : t.scopes = [s]) : t.exit = t := by
  obtain ⟨root, stack⟩ := t
  cases stack with
  | nil => rfl
  | cons top rest => simp [scopes] at h

theorem Shows.exit (h : t.Shows l) : t.exit.Shows l.exit := by
  obtain ⟨hinner, outer, hscopes, houter, -⟩ := h.inner
  obtain ⟨inner, maps⟩ := l
  cases houter with
  | nil => rwa [exit_of_single hscopes]
  | cons haround hfurther =>
    unfold Shows
    rw [scopes_exit hscopes, hinner.statics]
    exact .cons (haround.foldl_put _) hfurther

theorem Shows.withSafety (h : t.Shows l) (safety : Safety) :
    (t.withSafety safety).Shows (l.withSafety safety) := by
  obtain ⟨root, stack⟩ := t
  obtain ⟨inner, outer⟩ := l
  have hresolved : ∀ around : Safety, around ≠ .inherited →
      (if safety = .inherited then around else safety) ≠ .inherited := by
    intro around haround
    split <;> assumption
  unfold Shows at h
  cases stack with
  | nil =>
    obtain ⟨hinner, houter⟩ := List.forall₂_cons.1 h
    cases houter
    exact .cons (hinner.withSafety (hresolved .safe (by decide))) .nil
  | cons s rest =>
    obtain ⟨hinner, houter⟩ := List.forall₂_cons.1 h
    obtain ⟨further, hscopes, -⟩ := (⟨root, rest⟩ : Table M).scopes_eq_cons
    change List.Forall₂ Scope.Shows (⟨root, rest⟩ : Table M).scopes outer at houter
    refine .cons ?_ houter
    rw [hscopes] at houter
    cases houter with
    | cons haround =>
      dsimp only [Layers.withSafety, List.head?_cons, Option.map_some, Option.getD_some]
      rw [← haround.context]
      exact hinner.withSafety (hresolved _ haround.safety)

/-- Every operation keeps a table and a stack related. -/
theorem Shows.apply (h : t.Shows l) (op : Op M) : (t.apply op).Shows (l.apply op) := by
  cases op with
  | insert e => exact h.insert e
  | enter context => exact h.enter context
  | exit => exact h.exit
  | withSafety safety => exact h.withSafety safety

theorem Shows.run (h : t.Shows l) (ops : List (Op M)) : (t.run ops).Shows (l.run ops) := by
  induction ops generalizing t l with
  | nil => exact h
  | cons op ops ih => exact ih (h.apply op)

/-- A name stands for what the innermost map that binds it says. -/
theorem Shows.lookup (h : t.Shows l) (name : Ident) : t.lookup name = l.lookup name := by
  have hfind : ∀ {ss : List (Scope M)} {ls : List (Layer M)}, List.Forall₂ Scope.Shows ss ls →
      ss.findSome? (·.get? name) = ls.findSome? (·.bindings.get? name) := by
    intro ss ls hall
    induction hall with
    | nil => rfl
    | cons hs _ ih => rw [List.findSome?_cons, List.findSome?_cons, hs.entry, ih]
  rw [lookup_eq_findSome?]
  exact hfind h

theorem Shows.orderly (h : t.Shows l) : ∀ s ∈ t.scopes, s.Orderly := by
  unfold Shows at h
  generalize t.scopes = ss, l.all = ls at h
  induction h with
  | nil => exact fun _ hs => absurd hs List.not_mem_nil
  | cons hs _ ih => exact List.forall_mem_cons.2 ⟨hs.orderly, ih⟩

theorem Shows.depth (h : t.Shows l) : t.depth = l.outer.length := by
  have hlength := List.Forall₂.length_eq h
  simpa [Table.depth, scopes, Layers.all] using hlength

/-- The root scope shows the last map. -/
theorem Shows.root (h : t.Shows l) : t.root.Shows l.root := by
  have hlast : ∀ {ss : List (Scope M)} {inner : Layer M} {outer : List (Layer M)},
      List.Forall₂ Scope.Shows (ss ++ [t.root]) (inner :: outer) →
        t.root.Shows (outer.getLastD inner) := by
    intro ss
    induction ss with
    | nil =>
      intro inner outer h
      obtain ⟨hinner, houter⟩ := List.forall₂_cons.1 h
      cases houter
      exact hinner
    | cons s ss ih =>
      intro inner outer h
      obtain ⟨-, houter⟩ := List.forall₂_cons.1 h
      cases outer with
      | nil => simp at houter
      | cons around outer =>
        rw [List.getLastD_cons]
        exact ih houter
  exact hlast h

/-- Whatever is done to an empty table, it holds what the same operations make of an empty stack of
maps: scope by scope the same names in the same order, each bound once and among the static entries
or among the others as its entry says. So the two answer alike when a name is looked up, in the
innermost scope or in all of them, and when the entries of the root scope are listed. -/
theorem run_shows (ops : List (Op M)) :
    let t := (empty : Table M).run ops
    let l := (Layers.empty : Layers M).run ops
    List.Forall₂ Scope.Shows t.scopes l.all ∧
      (∀ s ∈ t.scopes, ∀ name e,
        (Scope.find? name s.persistent = some e ↔ s.get? name = some e ∧ e.static = true) ∧
          (Scope.find? name s.transient = some e ↔ s.get? name = some e ∧ e.static = false)) ∧
      (∀ name, t.lookup name = l.lookup name ∧
        t.lookupHere name = l.inner.bindings.get? name) ∧
      t.context = l.inner.context ∧ t.depth = l.outer.length ∧
      t.entries = l.root.bindings.entries.map (·.2) := by
  intro t l
  have h : t.Shows l := shows_empty.run ops
  refine ⟨h, ?_, fun name => ⟨h.lookup name, h.inner.1.entry name⟩, h.inner.1.context, h.depth,
    h.root.entries⟩
  intro s hs name e
  have horderly := h.orderly s hs
  exact ⟨horderly.find?_persistent, horderly.find?_transient⟩

end Table

end TreeSema
