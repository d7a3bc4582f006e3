import TreeSema.Proofs.Lawful
import TreeSema.Proofs.TableRel

/-!
# Scopes that keep their definitions apart

A definition is a static entry: it outlives its scope by being handed on to the scope around it,
which overwrites whatever has its name there. `Table.Apart` is why nothing is ever overwritten: no
scope further out binds the name of a definition. It is kept by defining a name that is free, by
binding a variable whatever scopes further out bind, and by opening and closing scopes.

* `Scope.Orderly`: a scope binds each name once, and its order lists the names that it binds.
* `Table.Apart.exit`: closing a scope keeps definitions apart.
* `Table.Defines.exit`: closing a scope loses no definition.
* `Table.Apart.exit_keeps`: closing a scope overwrites no entry of the scope around it.
-/
namespace TreeSema

variable {M : Type}

/-! ## One scope -/

namespace Scope

/-- The names that a scope binds, those of definitions first. -/
def names (s : Scope M) : List Ident := (s.persistent ++ s.transient).map (·.name)

/-- Each name is bound once, by a static or by another entry, and the order lists the names. -/
structure Orderly (s : Scope M) : Prop where
  static : ∀ e ∈ s.persistent, e.static = true
  passing : ∀ e ∈ s.transient, e.static = false
  order : s.order.Perm s.names
  nodup : s.order.Nodup

variable {s : Scope M} {name : Ident} {e : Entry M}

theorem mem_names : name ∈ s.names ↔ ∃ e, s.Holds e ∧ e.name = name := by
  simp only [names, List.mem_map, List.mem_append, Holds, or_comm]

theorem find?_eq_none_iff {es : List (Entry M)} :
    find? name es = none ↔ ∀ e ∈ es, e.name ≠ name := by
  simp [find?, List.find?_eq_none]

theorem name_of_find? {es} (h : find? name es = some e) : e.name = name := by
  simpa using List.find?_some h

theorem get?_eq_none_iff : s.get? name = none ↔ ∀ e, s.Holds e → e.name ≠ name := by
  unfold get?
  rw [Option.orElse_eq_none, find?_eq_none_iff, find?_eq_none_iff]
  constructor
  · rintro ⟨hp, ht⟩ e (he | he)
    · exact ht e he
    · exact hp e he
  · intro h
    exact ⟨fun e he => h e (.inr he), fun e he => h e (.inl he)⟩

theorem name_of_get? (h : s.get? name = some e) : e.name = name := by
  rcases (Option.orElse_eq_some _ _ _).1 h with h | ⟨-, h⟩
  · exact name_of_find? h
  · exact name_of_find? h

theorem get?_isSome_iff : (s.get? name).isSome ↔ name ∈ s.names := by
  rw [mem_names, Option.isSome_iff_ne_none, ne_eq, get?_eq_none_iff]
  push Not
  rfl

theorem orderly_empty (context : Context) : (empty context : Scope M).Orderly :=
  ⟨fun _ he => absurd he List.not_mem_nil, fun _ he => absurd he List.not_mem_nil, .nil,
    List.nodup_nil⟩

namespace Orderly

theorem nodup_names (h : s.Orderly) : s.names.Nodup := h.order.nodup_iff.1 h.nodup

/-- Entries of a scope with the same name are the same. -/
theorem eq_of_name (h : s.Orderly) {e' : Entry M} (he : s.Holds e)
    (he' : s.Holds e') (hn : e.name = e'.name) : e = e' :=
  List.inj_on_of_nodup_map h.nodup_names (List.mem_append.2 he.symm) (List.mem_append.2 he'.symm) hn

/-- A name stands for the entry that has it. -/
theorem get?_eq (h : s.Orderly) (he : s.Holds e) : s.get? e.name = some e := by
  rcases hg : s.get? e.name with _ | e'
  · exact absurd rfl (get?_eq_none_iff.1 hg e he)
  · rw [h.eq_of_name (holds_of_get? hg) he (name_of_get? hg)]

theorem mem_statics (h : s.Orderly) : e ∈ s.statics ↔ e ∈ s.persistent := by
  constructor
  · intro he
    obtain ⟨name, -, he⟩ := List.mem_filterMap.1 he
    exact List.mem_of_find?_eq_some he
  · intro he
    have hname : e.name ∈ s.order := h.order.mem_iff.2 (mem_names.2 ⟨e, .inr he, rfl⟩)
    refine List.mem_filterMap.2 ⟨e.name, hname, ?_⟩
    rcases hf : find? e.name s.persistent with _ | e'
    · exact absurd rfl (find?_eq_none_iff.1 hf e he)
    · rw [h.eq_of_name (.inr (List.mem_of_find?_eq_some hf)) (.inr he) (name_of_find? hf)]

/-- The definitions of a scope have different names. -/
theorem nodup_statics (h : s.Orderly) : (s.statics.map (·.name)).Nodup := by
  have hsub : ∀ order : List Ident,
      ((order.filterMap (find? · s.persistent)).map (·.name)).Sublist order := by
    intro order
    induction order with
    | nil => exact .slnil
    | cons name order ih =>
      rw [List.filterMap_cons]
      rcases hf : find? name s.persistent with _ | e
      · exact ih.cons _
      · rw [List.map_cons, name_of_find? hf]
        exact ih.cons_cons _
  exact (hsub s.order).nodup h.nodup

/-- The entries of a scope have the names of its order. -/
theorem map_entries (h : s.Orderly) : s.entries.map (·.name) = s.order := by
  have hall : ∀ order : List Ident, (∀ name ∈ order, name ∈ s.names) →
      (order.filterMap s.get?).map (·.name) = order := by
    intro order
    induction order with
    | nil => exact fun _ => rfl
    | cons name order ih =>
      intro hnames
      obtain ⟨hname, hrest⟩ := List.forall_mem_cons.1 hnames
      obtain ⟨e, he⟩ := Option.isSome_iff_exists.1 (get?_isSome_iff.2 hname)
      rw [List.filterMap_cons, he, List.map_cons, name_of_get? he, ih hrest]
  exact hall s.order fun name hname => h.order.mem_iff.1 hname

theorem mem_entries (h : s.Orderly) : e ∈ s.entries ↔ s.Holds e := by
  constructor
  · intro he
    obtain ⟨name, -, he⟩ := List.mem_filterMap.1 he
    exact holds_of_get? he
  · intro he
    exact List.mem_filterMap.2
      ⟨e.name, h.order.mem_iff.2 (mem_names.2 ⟨e, he, rfl⟩), h.get?_eq he⟩

theorem names_without (name : Ident) (es : List (Entry M)) :
    (without name es).map (·.name) = (es.map (·.name)).filter (· != name) := by
  rw [without, List.filter_map]
  rfl

/-- The names that are bound after an entry was put. -/
theorem names_put (s : Scope M) (e : Entry M) :
    (s.put e).names.Perm (e.name :: s.names.filter (· != e.name)) := by
  have hnames : s.names.filter (· != e.name)
      = (without e.name s.persistent).map (·.name) ++ (without e.name s.transient).map (·.name) := by
    rw [names_without, names_without, names, List.map_append, List.filter_append]
  rw [hnames]
  cases hs : e.static with
  | true =>
    have : (s.put e).names = (without e.name s.persistent).map (·.name) ++ [e.name]
        ++ (without e.name s.transient).map (·.name) := by simp [names, Scope.put, hs]
    rw [this, List.append_assoc]
    exact List.perm_middle
  | false =>
    have : (s.put e).names = (without e.name s.persistent).map (·.name)
        ++ (without e.name s.transient).map (·.name) ++ [e.name] := by simp [names, Scope.put, hs]
    rw [this]
    exact List.perm_append_singleton _ _

/-- Whatever is put into a scope, it stays orderly. -/
theorem put (h : s.Orderly) (e : Entry M) : (s.put e).Orderly where
  static e' he' := by
    dsimp only [Scope.put] at he'
    split at he'
    · rename_i hs
      rcases List.mem_append.1 he' with he' | he'
      · exact h.static e' (List.mem_of_mem_filter he')
      · rw [List.mem_singleton.1 he', hs]
    · exact h.static e' (List.mem_of_mem_filter he')
  passing e' he' := by
    dsimp only [Scope.put] at he'
    split at he'
    · exact h.passing e' (List.mem_of_mem_filter he')
    · rename_i hs
      rcases List.mem_append.1 he' with he' | he'
      · exact h.passing e' (List.mem_of_mem_filter he')
      · rw [List.mem_singleton.1 he']
        simpa using hs
  order := by
    refine List.Perm.trans ?_ (names_put s e).symm
    dsimp only [Scope.put]
    split
    · rename_i hsome
      have hmem : e.name ∈ s.order := h.order.mem_iff.2 (get?_isSome_iff.1 hsome)
      rw [← h.nodup_names.erase_eq_filter]
      exact (List.perm_cons_erase hmem).trans ((h.order.erase _).cons _)
    · rename_i hnone
      have hfilter : s.names.filter (· != e.name) = s.names := by
        refine List.filter_eq_self.2 fun name hname => ?_
        have : name ≠ e.name := by
          rintro rfl
          exact hnone (get?_isSome_iff.2 hname)
        simpa using this
      rw [hfilter]
      exact (List.perm_append_singleton _ _).trans (h.order.cons _)
  nodup := by
    dsimp only [Scope.put]
    split
    · exact h.nodup
    · rename_i hnone
      have hnew : e.name ∉ s.order := fun hmem =>
        hnone (get?_isSome_iff.2 (h.order.mem_iff.1 hmem))
      simpa using h.nodup.concat hnew

end Orderly

theorem mem_persistent_put {d : Entry M} : d ∈ (s.put e).persistent ↔
    (d ∈ s.persistent ∧ d.name ≠ e.name) ∨ (e.static = true ∧ d = e) := by
  cases hs : e.static <;> simp [put, without, hs]

theorem find?_without_of_ne (es : List (Entry M)) {other} (hn : name ≠ other) :
    find? name (without other es) = find? name es := by
  unfold find? without
  rw [List.find?_filter]
  congr 1
  funext e
  by_cases he : e.name = name
  · simp [he, hn]
  · simp [he]

theorem find?_concat_of_ne (es : List (Entry M)) (hn : name ≠ e.name) :
    find? name (es ++ [e]) = find? name es := by
  have hself : find? name [e] = none := find?_eq_none_iff.2 (by simpa using Ne.symm hn)
  unfold find? at hself ⊢
  rw [List.find?_append, hself, Option.or_none]

theorem find?_persistent_put_of_ne (s : Scope M) (hn : name ≠ e.name) :
    find? name (s.put e).persistent = find? name s.persistent := by
  unfold put
  dsimp only
  split
  · rw [find?_concat_of_ne _ hn, find?_without_of_ne _ hn]
  · rw [find?_without_of_ne _ hn]

theorem find?_transient_put_of_ne (s : Scope M) (hn : name ≠ e.name) :
    find? name (s.put e).transient = find? name s.transient := by
  unfold put
  dsimp only
  split
  · rw [find?_without_of_ne _ hn]
  · rw [find?_concat_of_ne _ hn, find?_without_of_ne _ hn]

theorem get?_put_of_ne (s : Scope M) (hn : name ≠ e.name) : (s.put e).get? name = s.get? name := by
  unfold get?
  rw [find?_persistent_put_of_ne s hn, find?_transient_put_of_ne s hn]

theorem get?_modify (s : Scope M) (name : Ident) {f : Entry M → Entry M}
    (hf : ∀ e, (f e).name = e.name) : (s.modify name f).get? name = (s.get? name).map f := by
  have hfind : ∀ es : List (Entry M),
      find? name (es.map fun e => if e.name = name then f e else e) = (find? name es).map f := by
    intro es
    induction es with
    | nil => rfl
    | cons e es ih =>
      unfold find? at ih ⊢
      by_cases he : e.name = name
      · simp [he, hf]
      · simpa [he] using ih
  unfold get? modify
  simp only [hfind]
  cases find? name s.persistent <;> rfl

theorem get?_modify_of_ne (s : Scope M) {other} {f : Entry M → Entry M}
    (hf : ∀ e, (f e).name = e.name) (hn : other ≠ name) :
    (s.modify name f).get? other = s.get? other := by
  have hfind : ∀ es : List (Entry M),
      find? other (es.map fun e => if e.name = name then f e else e) = find? other es := by
    intro es
    induction es with
    | nil => rfl
    | cons e es ih =>
      unfold find? at ih ⊢
      by_cases he : e.name = name
      · simpa [he, hf, hn.symm] using ih
      · rw [List.map_cons, if_neg he, List.find?_cons, List.find?_cons, ih]
  unfold get? modify
  simp only [hfind]

theorem get?_put_self (s : Scope M) (e : Entry M) : (s.put e).get? e.name = some e := by
  have hwithout : ∀ es : List (Entry M), find? e.name (without e.name es) = none := fun es =>
    find?_eq_none_iff.2 (by simp [without])
  have happend : ∀ es : List (Entry M), find? e.name (without e.name es ++ [e]) = some e := by
    intro es
    have hnone := hwithout es
    unfold find? at hnone ⊢
    simp [List.find?_append, hnone]
  unfold get? put
  cases e.static <;> simp [hwithout, happend]

end Scope

/-! ## Tables -/

namespace Table

variable {t t' : Table M} {s : Scope M} {e : Entry M} {name : Ident} {f : Entry M → Entry M}

/-- The scopes of a table, the innermost first and the root scope last. -/
def scopes (t : Table M) : List (Scope M) := t.stack ++ [t.root]

/-- A table has a definition in one of its scopes. -/
def Defines (t : Table M) (e : Entry M) : Prop := ∃ s ∈ t.scopes, e ∈ s.persistent

/-- No scope binds the name of a definition that stands further in. -/
def Clear (inner outer : Scope M) : Prop := ∀ e ∈ inner.persistent, outer.get? e.name = none

/-- The definitions of a table are kept apart. -/
structure Apart (t : Table M) : Prop where
  orderly : ∀ s ∈ t.scopes, s.Orderly
  clear : t.scopes.Pairwise Clear

theorem mem_scopes : s ∈ t.scopes ↔ s ∈ t.root :: t.stack := by
  simp [scopes, or_comm]

theorem holds_iff : t.Holds e ↔ ∃ s ∈ t.scopes, s.Holds e := by
  simp only [Holds, mem_scopes]

theorem Defines.holds (h : t.Defines e) : t.Holds e := by
  obtain ⟨s, hs, he⟩ := h
  exact holds_iff.2 ⟨s, hs, .inr he⟩

theorem lookup_eq_findSome? (t : Table M) (name : Ident) :
    t.lookup name = t.scopes.findSome? (·.get? name) := by
  simp [lookup, scopes, List.findSome?_append]

theorem lookup_eq_none_iff : t.lookup name = none ↔ ∀ s ∈ t.scopes, s.get? name = none := by
  rw [lookup_eq_findSome?, List.findSome?_eq_none_iff]

theorem apart_empty : (empty : Table M).Apart where
  orderly s hs := by
    obtain rfl : s = _ := by simpa [scopes, empty] using hs
    exact Scope.orderly_empty _
  clear := List.pairwise_singleton _ _

/-- The innermost scope and those around it. -/
theorem scopes_eq_cons (t : Table M) : ∃ outer, t.scopes = t.current :: outer ∧
    ∀ f : Scope M → Scope M, (t.modifyCurrent f).scopes = f t.current :: outer := by
  obtain ⟨root, stack⟩ := t
  cases stack with
  | nil => exact ⟨[], rfl, fun _ => rfl⟩
  | cons s rest => exact ⟨rest ++ [root], rfl, fun _ => rfl⟩

theorem lookup_insert_of_ne (t : Table M) (hn : name ≠ e.name) :
    (t.insert e).lookup name = t.lookup name := by
  obtain ⟨outer, hscopes, hmodify⟩ := t.scopes_eq_cons
  rw [lookup_eq_findSome?, lookup_eq_findSome?, insert, hmodify, hscopes, List.findSome?_cons,
    List.findSome?_cons, Scope.get?_put_of_ne _ hn]

theorem lookup_insert_self (t : Table M) (e : Entry M) : (t.insert e).lookup e.name = some e := by
  obtain ⟨outer, -, hmodify⟩ := t.scopes_eq_cons
  rw [lookup_eq_findSome?, insert, hmodify, List.findSome?_cons, Scope.get?_put_self]

/-- Only the innermost scope with a name is changed. -/
theorem findSome?_modifyIn (hf : ∀ e, (f e).name = e.name)
    {ss ss' : List (Scope M)} (h : modifyIn name f ss = some ss') :
    (∃ e, ss.findSome? (·.get? name) = some e ∧ ss'.findSome? (·.get? name) = some (f e)) ∧
      ∀ other ≠ name, ss'.findSome? (·.get? other) = ss.findSome? (·.get? other) := by
  induction ss generalizing ss' with
  | nil => cases h
  | cons s rest ih =>
    unfold modifyIn at h
    split at h
    · rename_i hsome
      cases h
      obtain ⟨e, he⟩ := Option.isSome_iff_exists.1 hsome
      refine ⟨⟨e, ?_, ?_⟩, fun other hn => ?_⟩
      · rw [List.findSome?_cons, he]
      · rw [List.findSome?_cons, Scope.get?_modify s name hf, he]
        rfl
      · rw [List.findSome?_cons, List.findSome?_cons, Scope.get?_modify_of_ne s hf hn]
    · rename_i hnone
      obtain ⟨rest', hrest, rfl⟩ := Option.map_eq_some_iff.1 h
      obtain ⟨⟨e, he, he'⟩, hother⟩ := ih hrest
      have hs : s.get? name = none := by simpa using hnone
      refine ⟨⟨e, ?_, ?_⟩, fun other hn => ?_⟩
      · rw [List.findSome?_cons, hs, he]
      · rw [List.findSome?_cons, hs, he']
      · rw [List.findSome?_cons, List.findSome?_cons, hother other hn]

theorem findSome?_of_modifyIn {ss : List (Scope M)}
    (h : modifyIn name f ss = none) : ss.findSome? (·.get? name) = none := by
  induction ss with
  | nil => rfl
  | cons s rest ih =>
    unfold modifyIn at h
    split at h
    · cases h
    · rename_i hnone
      rw [List.findSome?_cons, Option.not_isSome_iff_eq_none.1 hnone]
      exact ih (Option.map_eq_none_iff.1 h)

theorem lookup_modify (t : Table M) (name : Ident)
    (hf : ∀ e, (f e).name = e.name) : (t.modify name f).lookup name = (t.lookup name).map f := by
  unfold lookup modify
  split
  · rename_i stack hstack
    obtain ⟨⟨e, he, he'⟩, -⟩ := findSome?_modifyIn hf hstack
    rw [he, he']
    rfl
  · rename_i hstack
    rw [findSome?_of_modifyIn hstack]
    exact Scope.get?_modify t.root name hf

theorem lookup_modify_of_ne (t : Table M) {other} (hf : ∀ e, (f e).name = e.name)
    (hn : other ≠ name) : (t.modify name f).lookup other = t.lookup other := by
  unfold lookup modify
  split
  · rename_i stack hstack
    rw [(findSome?_modifyIn hf hstack).2 other hn]
  · rw [Scope.get?_modify_of_ne t.root hf hn]

theorem lookupHere_insert_of_ne (t : Table M) (hn : name ≠ e.name) :
    (t.insert e).lookupHere name = t.lookupHere name := by
  have hcurrent : (t.insert e).current = t.current.put e := by
    obtain ⟨root, stack⟩ := t
    cases stack <;> rfl
  rw [lookupHere, hcurrent, Scope.get?_put_of_ne _ hn, lookupHere]

/-! ## Insertion -/

/-- Definitions stay, unless one of the innermost scope has the name of the new entry. -/
theorem Defines.insert {e'} (h : t.Defines e')
    (hopen : ∀ d ∈ t.current.persistent, d.name ≠ e.name) : (t.insert e).Defines e' := by
  obtain ⟨s, hs, he'⟩ := h
  obtain ⟨outer, hscopes, hmodify⟩ := t.scopes_eq_cons
  rw [hscopes] at hs
  unfold Defines
  rw [Table.insert, hmodify]
  rcases List.mem_cons.1 hs with rfl | hs
  · exact ⟨_, .head _, Scope.mem_persistent_put.2 (.inl ⟨he', hopen e' he'⟩)⟩
  · exact ⟨s, .tail _ hs, he'⟩

theorem defines_insert_self (t : Table M) (hstatic : e.static = true) : (t.insert e).Defines e := by
  obtain ⟨outer, hscopes, hmodify⟩ := t.scopes_eq_cons
  unfold Defines
  rw [Table.insert, hmodify]
  exact ⟨_, .head _, Scope.mem_persistent_put.2 (.inr ⟨hstatic, rfl⟩)⟩

/-- Inserting an entry defines nothing else. -/
theorem Defines.of_insert {d} (h : (t.insert e).Defines d) :
    (e.static = true ∧ d = e) ∨ t.Defines d := by
  obtain ⟨outer, hscopes, hmodify⟩ := t.scopes_eq_cons
  obtain ⟨s, hs, hd⟩ := h
  rw [Table.insert, hmodify] at hs
  rcases List.mem_cons.1 hs with rfl | hs
  · rcases Scope.mem_persistent_put.1 hd with ⟨hd, -⟩ | hd
    · exact .inr ⟨t.current, by rw [hscopes]; exact .head _, hd⟩
    · exact .inl hd
  · exact .inr ⟨s, by rw [hscopes]; exact .tail _ hs, hd⟩

theorem open_of_lookup (h : t.lookup name = none) : ∀ d ∈ t.current.persistent, d.name ≠ name := by
  obtain ⟨outer, hscopes, -⟩ := t.scopes_eq_cons
  intro d hd
  have hcurrent := lookup_eq_none_iff.1 h t.current (by rw [hscopes]; exact .head _)
  exact Scope.get?_eq_none_iff.1 hcurrent d (.inr hd)

namespace Apart

/-- A variable may be bound whatever scopes further out bind; a definition needs a free name. -/
theorem insert (h : t.Apart) (hfree : e.static = true → t.lookup e.name = none) :
    (t.insert e).Apart := by
  obtain ⟨outer, hscopes, hmodify⟩ := t.scopes_eq_cons
  obtain ⟨horderly, hclear⟩ := h
  rw [hscopes] at horderly hclear
  obtain ⟨htop, houter⟩ := List.forall_mem_cons.1 horderly
  obtain ⟨hhead, htail⟩ := List.pairwise_cons.1 hclear
  constructor
  · rw [Table.insert, hmodify]
    exact List.forall_mem_cons.2 ⟨htop.put e, houter⟩
  · rw [Table.insert, hmodify]
    refine List.pairwise_cons.2 ⟨fun s hs d hd => ?_, htail⟩
    rcases Scope.mem_persistent_put.1 hd with ⟨hd, -⟩ | ⟨hstatic, rfl⟩
    · exact hhead s hs d hd
    · exact lookup_eq_none_iff.1 (hfree hstatic) s (by rw [hscopes]; exact .tail _ hs)

/-- Definitions with free and different names, inserted one after the other: nothing is lost or
overwritten. -/
theorem foldl_insert : ∀ {es : List (Entry M)} {t : Table M}, t.Apart →
    (∀ e ∈ es, e.static = true) → (es.map (·.name)).Nodup → (∀ e ∈ es, t.lookup e.name = none) →
    (es.foldl Table.insert t).Apart ∧
      (∀ e, t.Defines e ∨ e ∈ es → (es.foldl Table.insert t).Defines e) ∧
      ∀ name e, t.lookupHere name = some e → (es.foldl Table.insert t).lookupHere name = some e
  | [], _, h, _, _, _ => ⟨h, by simp, fun _ _ => id⟩
  | d :: es, t, h, hstatic, hnodup, hfree => by
    obtain ⟨hd, hstatic⟩ := List.forall_mem_cons.1 hstatic
    obtain ⟨hnew, hnodup⟩ := List.nodup_cons.1 hnodup
    obtain ⟨hdfree, hfree⟩ := List.forall_mem_cons.1 hfree
    have hfree' : ∀ e ∈ es, (t.insert d).lookup e.name = none := by
      intro e he
      have hne : e.name ≠ d.name := fun hn => hnew (List.mem_map.2 ⟨e, he, hn⟩)
      rw [lookup_insert_of_ne t hne, hfree e he]
    obtain ⟨hapart, hdefines, hkeeps⟩ :=
      foldl_insert (h.insert fun _ => hdfree) hstatic hnodup hfree'
    refine ⟨hapart, fun e he => hdefines e ?_, fun name e he => hkeeps name e ?_⟩
    · rcases he with he | he
      · exact .inl (he.insert (open_of_lookup hdfree))
      · rcases List.mem_cons.1 he with rfl | he
        · exact .inl (defines_insert_self t hd)
        · exact .inr he
    · have hne : name ≠ d.name := by
        rintro rfl
        obtain ⟨outer, hscopes, -⟩ := t.scopes_eq_cons
        have hnone := lookup_eq_none_iff.1 hdfree t.current (by rw [hscopes]; exact .head _)
        rw [lookupHere, hnone] at he
        cases he
      rw [lookupHere_insert_of_ne t hne, he]

/-! ## Opening and closing scopes -/

theorem enter (h : t.Apart) (context : Context) : (t.enter context).Apart where
  orderly := List.forall_mem_cons.2 ⟨Scope.orderly_empty _, h.orderly⟩
  clear := List.pairwise_cons.2 ⟨fun _ _ _ hd => (List.not_mem_nil hd).elim, h.clear⟩

section Closing

variable {root : Scope M} {rest : List (Scope M)} (h : (⟨root, s :: rest⟩ : Table M).Apart)

include h

/-- The definitions of a scope that is closed are inserted into the table around it. -/
theorem closing : (⟨root, s :: rest⟩ : Table M).exit.Apart ∧
    (∀ e, (⟨root, rest⟩ : Table M).Defines e ∨ e ∈ s.statics →
      (⟨root, s :: rest⟩ : Table M).exit.Defines e) ∧
    ∀ name e, (⟨root, rest⟩ : Table M).lookupHere name = some e →
      (⟨root, s :: rest⟩ : Table M).exit.lookupHere name = some e := by
  obtain ⟨hs, hrest⟩ := List.forall_mem_cons.1 h.orderly
  obtain ⟨hhead, htail⟩ := List.pairwise_cons.1 h.clear
  refine foldl_insert ⟨hrest, htail⟩ (fun e he => ?_) hs.nodup_statics fun e he => ?_
  · exact hs.static e (hs.mem_statics.1 he)
  · exact lookup_eq_none_iff.2 fun s' hs' => hhead s' hs' e (hs.mem_statics.1 he)

/-- Closing a scope overwrites no entry of the scope around it. -/
theorem exit_keeps (he : (⟨root, rest⟩ : Table M).lookupHere name = some e) :
    (⟨root, s :: rest⟩ : Table M).exit.lookupHere name = some e :=
  h.closing.2.2 name e he

end Closing

theorem exit (h : t.Apart) : t.exit.Apart := by
  obtain ⟨root, stack⟩ := t
  cases stack with
  | nil => exact h
  | cons s rest => exact h.closing.1

end Apart

theorem Defines.enter (h : t.Defines e) (context : Context) : (t.enter context).Defines e := by
  obtain ⟨s, hs, he⟩ := h
  exact ⟨s, .tail _ hs, he⟩

theorem Defines.of_enter {context} (h : (t.enter context).Defines e) : t.Defines e := by
  obtain ⟨s, hs, he⟩ := h
  rcases List.mem_cons.1 hs with rfl | hs
  · cases he
  · exact ⟨s, hs, he⟩

/-- Closing a scope defines nothing new. -/
theorem Defines.of_exit (h : t.exit.Defines e) (ht : t.Apart) : t.Defines e := by
  obtain ⟨root, stack⟩ := t
  cases stack with
  | nil => exact h
  | cons s rest =>
    rcases of_foldl_insert (P := (Defines · e)) (fun h => h.of_insert.imp_left And.right) h with
      he | ⟨s', hs', he⟩
    · exact ⟨s, .head _, (ht.orderly s (.head _)).mem_statics.1 he⟩
    · exact ⟨s', .tail _ hs', he⟩

/-- Closing a scope loses no definition. -/
theorem Defines.exit (h : t.Defines e) (ht : t.Apart) : t.exit.Defines e := by
  obtain ⟨root, stack⟩ := t
  cases stack with
  | nil => exact h
  | cons s rest =>
    refine ht.closing.2.1 e ?_
    obtain ⟨s', hs', he⟩ := h
    rcases List.mem_cons.1 hs' with rfl | hs'
    · exact .inr ((ht.orderly _ (.head _)).mem_statics.2 he)
    · exact .inl ⟨s', hs', he⟩

/-- Where the scopes of a table stand, the innermost first. -/
def contexts (t : Table M) : List Context := t.scopes.map (·.context)

theorem length_contexts (t : Table M) : t.contexts.length = t.stack.length + 1 := by
  simp [contexts, scopes]

/-- The innermost scope is the first. -/
theorem context_of_contexts (h : t.contexts = t'.contexts) : t.context = t'.context := by
  have hhead : ∀ t : Table M, t.contexts.head? = some t.context := by
    rintro ⟨root, _ | ⟨s, rest⟩⟩ <;> rfl
  exact Option.some.inj (by rw [← hhead, ← hhead, h])

theorem Rel.scopes {N : Type} {t' : Table N} {E : Entry M → Entry N → Prop} (h : t.Rel E t') :
    List.Forall₂ (Scope.Rel E) t.scopes t'.scopes :=
  List.rel_append h.stack (.cons h.root .nil)

theorem Rel.contexts {E : Entry M → Entry M → Prop} (h : t.Rel E t') :
    t.contexts = t'.contexts := by
  have hscopes := h.scopes
  unfold Table.contexts
  generalize t.scopes = ss, t'.scopes = ss' at hscopes ⊢
  induction hscopes with
  | nil => rfl
  | cons hs _ ih => rw [List.map_cons, List.map_cons, hs.context, ih]

theorem contexts_insert (t : Table M) (e : Entry M) : (t.insert e).contexts = t.contexts := by
  obtain ⟨root, stack⟩ := t
  cases stack <;> rfl

theorem contexts_foldl_insert : ∀ (es : List (Entry M)) (t : Table M),
    (es.foldl insert t).contexts = t.contexts
  | [], _ => rfl
  | e :: es, t => (contexts_foldl_insert es (t.insert e)).trans (contexts_insert t e)

/-- Closing a scope leaves the others where they stand. -/
theorem contexts_exit {context} (h : t.contexts = (t'.enter context).contexts) :
    t.exit.contexts = t'.contexts := by
  obtain ⟨root, stack⟩ := t
  cases stack with
  | nil =>
    have hlen := congrArg List.length h
    simp [length_contexts, enter] at hlen
  | cons s rest => exact (contexts_foldl_insert _ _).trans (List.cons.inj h).2

/-! ## Tables without open scopes -/

/-- In a table without open scopes a definition stands in the root scope, under its name. -/
theorem Apart.root_get? (h : t.Apart) (hstack : t.stack = [])
    (he : t.Defines e) : t.root.get? e.name = some e := by
  obtain ⟨s, hs, he⟩ := he
  obtain rfl : s = t.root := by simpa [scopes, hstack] using hs
  exact (h.orderly _ hs).get?_eq (.inr he)

theorem name_of_lookup (h : t.lookup name = some e) : e.name = name := by
  rw [lookup_eq_findSome?] at h
  obtain ⟨s, -, hs⟩ := List.exists_of_findSome?_eq_some h
  exact Scope.name_of_get? hs

theorem lookup_of_stack (hstack : t.stack = []) (name : Ident) :
    t.lookup name = t.root.get? name := by
  simp [lookup, hstack]

end Table

/-! ## Related tables -/

section Rel

variable {N : Type} {E : Entry M → Entry N → Prop} (hE : Entry.Matching E)

include hE

theorem map_name_of_rel {es : List (Entry M)} {es' : List (Entry N)} (h : List.Forall₂ E es es') :
    es.map (·.name) = es'.map (·.name) := by
  induction h with
  | nil => rfl
  | cons he _ ih => rw [List.map_cons, List.map_cons, hE.name he, ih]

theorem Scope.Rel.orderly {s : Scope M} {s' : Scope N} (h : s.Rel E s') (hs : s.Orderly) :
    s'.Orderly where
  static e' he' := by
    obtain ⟨e, he, hee⟩ := exists_of_forall₂_right h.persistent he'
    rw [← hE.static hee]
    exact hs.static e he
  passing e' he' := by
    obtain ⟨e, he, hee⟩ := exists_of_forall₂_right h.transient he'
    rw [← hE.static hee]
    exact hs.passing e he
  order := by
    have hnames : s'.names = s.names := by
      unfold names
      rw [List.map_append, List.map_append, map_name_of_rel hE h.persistent,
        map_name_of_rel hE h.transient]
    rw [hnames, ← h.order]
    exact hs.order
  nodup := h.order ▸ hs.nodup

theorem Table.Rel.apart {t : Table M} {t' : Table N} (h : t.Rel E t') (ht : t.Apart) :
    t'.Apart := by
  have hscopes := h.scopes
  have hclear := ht.clear
  constructor
  · intro s' hs'
    obtain ⟨s, hs, hss⟩ := exists_of_forall₂_right hscopes hs'
    exact hss.orderly hE (ht.orderly s hs)
  · generalize t.scopes = ss at hscopes hclear
    generalize t'.scopes = ss' at hscopes ⊢
    induction hscopes with
    | nil => exact .nil
    | @cons s s' ss ss' hs hss ih =>
      obtain ⟨hhead, htail⟩ := List.pairwise_cons.1 hclear
      refine List.pairwise_cons.2 ⟨fun u' hu' d' hd' => ?_, ih htail⟩
      obtain ⟨u, hu, huu⟩ := exists_of_forall₂_right hss hu'
      obtain ⟨d, hd, hdd⟩ := exists_of_forall₂_right hs.persistent hd'
      have hnone := hhead u hu d hd
      have hget := huu.get? hE d.name
      rw [hnone, hE.name hdd] at hget
      generalize u'.get? d'.name = o at hget
      cases hget
      rfl

end Rel

end TreeSema
