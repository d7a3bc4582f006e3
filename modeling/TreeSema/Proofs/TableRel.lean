import TreeSema.Analysis.Program
import TreeSema.Proofs.Pointwise

/-!
# Tables related entry by entry

Two tables are related if they have the same scopes, with entries that are related one by one and
stand in the same order. Whatever looks at the names of entries only, and at whether they are
static, goes the same way in both tables, so that every operation on tables keeps them related.

* `Table.Rel.lookup`: a name stands for related entries.
* `Table.Rel.insert`, `Table.Rel.enter`, `Table.Rel.exit`, `Table.Rel.modify`: operations on both.
* `Table.Rel.modify_right`: a change to one of the tables that keeps its entries related.
-/
namespace TreeSema

variable {M N : Type} {E : Entry M → Entry N → Prop}

/-- The relation goes by name and keeps apart what is static. -/
structure Entry.Matching (E : Entry M → Entry N → Prop) : Prop where
  name : ∀ {e e'}, E e e' → e.name = e'.name
  static : ∀ {e e'}, E e e' → e.static = e'.static

namespace Scope

/-- Two scopes have the same entries, up to a relation. -/
structure Rel (E : Entry M → Entry N → Prop) (s : Scope M) (s' : Scope N) : Prop where
  transient : List.Forall₂ E s.transient s'.transient
  persistent : List.Forall₂ E s.persistent s'.persistent
  order : s.order = s'.order
  context : s.context = s'.context

theorem rel_empty (context : Context) : (Scope.empty context : Scope M).Rel E (.empty context) :=
  ⟨.nil, .nil, rfl, rfl⟩

variable (hE : Entry.Matching E) {s : Scope M} {s' : Scope N} {es : List (Entry M)}
  {es' : List (Entry N)}

include hE

theorem rel_find? (name : Ident) (h : List.Forall₂ E es es') :
    Option.Rel E (find? name es) (find? name es') := by
  induction h with
  | nil => exact .none
  | @cons e e' es es' he _ ih =>
    unfold find? at ih ⊢
    rw [List.find?_cons, List.find?_cons, hE.name he]
    cases e'.name == name with
    | true => exact .some he
    | false => exact ih

theorem rel_without (name : Ident) (h : List.Forall₂ E es es') :
    List.Forall₂ E (without name es) (without name es') := by
  induction h with
  | nil => exact .nil
  | @cons e e' es es' he _ ih =>
    unfold without at ih ⊢
    rw [List.filter_cons, List.filter_cons, hE.name he]
    split
    · exact .cons he ih
    · exact ih

omit hE in
theorem rel_isSome {e : Option (Entry M)} {e' : Option (Entry N)} (h : Option.Rel E e e') :
    e.isSome = e'.isSome := by
  cases h <;> rfl

omit hE in
theorem rel_orElse {e f e' f'} (he : Option.Rel E e e') (hf : Option.Rel E f f') :
    Option.Rel E (e <|> f) (e' <|> f') := by
  cases he with
  | some he => exact .some he
  | none => exact hf

theorem Rel.get? (h : s.Rel E s') (name : Ident) :
    Option.Rel E (s.get? name) (s'.get? name) :=
  rel_orElse (rel_find? hE name h.persistent) (rel_find? hE name h.transient)

theorem Rel.put {e e'} (h : s.Rel E s') (he : E e e') : (s.put e).Rel E (s'.put e') := by
  have htransient := rel_without hE e.name h.transient
  have hpersistent := rel_without hE e.name h.persistent
  have hsome := rel_isSome (h.get? hE e.name)
  rw [hE.name he] at htransient hpersistent hsome
  unfold Scope.put
  dsimp only
  rw [hE.name he, hE.static he, hsome, h.order]
  refine ⟨?_, ?_, rfl, h.context⟩
  · dsimp only
    split
    · exact htransient
    · exact List.rel_append htransient (.cons he .nil)
  · dsimp only
    split
    · exact List.rel_append hpersistent (.cons he .nil)
    · exact hpersistent

theorem Rel.statics (h : s.Rel E s') : List.Forall₂ E s.statics s'.statics := by
  unfold Scope.statics
  rw [h.order]
  induction s'.order with
  | nil => exact .nil
  | cons name order ih =>
    rw [List.filterMap_cons, List.filterMap_cons]
    have hfind := rel_find? hE name h.persistent
    generalize find? name s.persistent = e, find? name s'.persistent = e' at hfind ⊢
    cases hfind with
    | none => exact ih
    | some he => exact .cons he ih

theorem Rel.modify {f : Entry M → Entry M} {f' : Entry N → Entry N} (h : s.Rel E s')
    (name : Ident) (hf : ∀ {e e'}, E e e' → E (f e) (f' e')) :
    (s.modify name f).Rel E (s'.modify name f') := by
  have hchange : ∀ {es : List (Entry M)} {es' : List (Entry N)}, List.Forall₂ E es es' →
      List.Forall₂ E (es.map fun e => if e.name = name then f e else e)
        (es'.map fun e => if e.name = name then f' e else e) := by
    intro es es' hes
    refine List.forall₂_map_left_iff.2 (List.forall₂_map_right_iff.2 (hes.imp fun e e' he => ?_))
    rw [hE.name he]
    split
    · exact hf he
    · exact he
  exact ⟨hchange h.transient, hchange h.persistent, h.order, h.context⟩

omit hE in
theorem modify_id (s : Scope M) (name : Ident) : s.modify name id = s := by
  simp [modify]

end Scope

namespace Table

variable {t : Table M} {t' : Table N} {ss ss₁ : List (Scope M)} {ss' : List (Scope N)}

/-- Two tables have the same scopes with the same entries, up to a relation. -/
structure Rel (E : Entry M → Entry N → Prop) (t : Table M) (t' : Table N) : Prop where
  root : t.root.Rel E t'.root
  stack : List.Forall₂ (Scope.Rel E) t.stack t'.stack

theorem Rel.refl {E : Entry M → Entry M → Prop} (hE : ∀ e, E e e) (t : Table M) : t.Rel E t := by
  have hscope : ∀ s : Scope M, s.Rel E s := fun s =>
    ⟨List.forall₂_same.2 fun e _ => hE e, List.forall₂_same.2 fun e _ => hE e, rfl, rfl⟩
  exact ⟨hscope _, List.forall₂_same.2 fun _ _ => hscope _⟩

theorem Rel.current (h : t.Rel E t') : t.current.Rel E t'.current := by
  obtain ⟨root, stack⟩ := t
  obtain ⟨root', stack'⟩ := t'
  obtain ⟨hroot, hstack⟩ := h
  cases hstack with
  | nil => exact hroot
  | cons hs _ => exact hs

theorem Rel.context (h : t.Rel E t') : t.context = t'.context :=
  h.current.context

theorem Rel.enter (h : t.Rel E t') (context : Context) :
    (t.enter context).Rel E (t'.enter context) := by
  unfold Table.enter
  rw [h.current.context]
  exact ⟨h.root, .cons (Scope.rel_empty _) h.stack⟩

variable (hE : Entry.Matching E) {f : Entry M → Entry M} {f' : Entry N → Entry N}

include hE

theorem Rel.insert {e e'} (h : t.Rel E t') (he : E e e') : (t.insert e).Rel E (t'.insert e') := by
  obtain ⟨root, stack⟩ := t
  obtain ⟨root', stack'⟩ := t'
  obtain ⟨hroot, hstack⟩ := h
  cases hstack with
  | nil => exact ⟨hroot.put hE he, .nil⟩
  | cons hs hrest => exact ⟨hroot, .cons (hs.put hE he) hrest⟩

theorem Rel.foldl_insert {es : List (Entry M)} {es' : List (Entry N)} (hes : List.Forall₂ E es es') :
    ∀ {t : Table M} {t' : Table N}, t.Rel E t' →
      (es.foldl Table.insert t).Rel E (es'.foldl Table.insert t') := by
  induction hes with
  | nil => exact id
  | cons he _ ih => exact fun h => ih (h.insert hE he)

theorem Rel.exit (h : t.Rel E t') : t.exit.Rel E t'.exit := by
  obtain ⟨root, stack⟩ := t
  obtain ⟨root', stack'⟩ := t'
  obtain ⟨hroot, hstack⟩ := h
  cases hstack with
  | nil => exact ⟨hroot, .nil⟩
  | cons hs hrest => exact Rel.foldl_insert hE (hs.statics hE) ⟨hroot, hrest⟩

theorem rel_findSome? (name : Ident) (h : List.Forall₂ (Scope.Rel E) ss ss') :
    Option.Rel E (ss.findSome? (·.get? name)) (ss'.findSome? (·.get? name)) := by
  induction h with
  | nil => exact .none
  | @cons s s' ss ss' hs _ ih =>
    rw [List.findSome?_cons, List.findSome?_cons]
    have hget := hs.get? hE name
    generalize s.get? name = e, s'.get? name = e' at hget ⊢
    cases hget with
    | none => exact ih
    | some he => exact .some he

/-- A name stands for related entries. -/
theorem Rel.lookup (h : t.Rel E t') (name : Ident) :
    Option.Rel E (t.lookup name) (t'.lookup name) :=
  Scope.rel_orElse (rel_findSome? hE name h.stack) (h.root.get? hE name)

theorem rel_modifyIn (name : Ident) (hf : ∀ {e e'}, E e e' → E (f e) (f' e'))
    (h : List.Forall₂ (Scope.Rel E) ss ss') :
    Option.Rel (List.Forall₂ (Scope.Rel E)) (modifyIn name f ss) (modifyIn name f' ss') := by
  induction h with
  | nil => exact .none
  | @cons s s' ss ss' hs hss ih =>
    unfold modifyIn
    rw [Scope.rel_isSome (hs.get? hE name)]
    split
    · exact .some (.cons (hs.modify hE name hf) hss)
    · generalize modifyIn name f ss = rest, modifyIn name f' ss' = rest' at ih ⊢
      cases ih with
      | none => exact .none
      | some ih => exact .some (.cons hs ih)

theorem Rel.modify (h : t.Rel E t') (name : Ident) (hf : ∀ {e e'}, E e e' → E (f e) (f' e')) :
    (t.modify name f).Rel E (t'.modify name f') := by
  unfold Table.modify
  have hstack := rel_modifyIn hE (f := f) name hf h.stack
  generalize modifyIn name f t.stack = stack, modifyIn name f' t'.stack = stack' at hstack ⊢
  cases hstack with
  | none => exact ⟨h.root.modify hE name hf, h.stack⟩
  | some hstack => exact ⟨h.root, hstack⟩

omit hE in
theorem modifyIn_id (name : Ident) (h : modifyIn name id ss = some ss₁) : ss₁ = ss := by
  induction ss generalizing ss₁ with
  | nil => cases h
  | cons s ss ih =>
    unfold modifyIn at h
    rw [Scope.modify_id] at h
    split at h
    · exact (Option.some.inj h).symm
    · obtain ⟨rest, hrest, rfl⟩ := Option.map_eq_some_iff.1 h
      rw [ih hrest]

omit hE in
theorem modify_id (t : Table M) (name : Ident) : t.modify name id = t := by
  unfold Table.modify
  split
  · rename_i stack hstack
    rw [modifyIn_id name hstack]
  · rw [Scope.modify_id]

/-- A change to one of two tables. -/
theorem Rel.modify_right (h : t.Rel E t') (name : Ident) (hf : ∀ {e e'}, E e e' → E e (f' e')) :
    t.Rel E (t'.modify name f') := by
  have hmodify := h.modify hE name (f := id) hf
  rwa [modify_id] at hmodify

end Table

end TreeSema
