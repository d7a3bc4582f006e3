import TreeSema.Proofs.Course.Decl

/-!
# Where a name is bound

The scopes of a table are counted from the root scope, so that a scope keeps its number while others
are opened and closed in it. A variable may still get its first value as long as the entry for its
name in a scope is missing or is that of a variable without one; `Symbols.due` is 1 for so long, and
0 afterwards. No declaration and no scope that is opened and closed ever brings it back to 1.

* `Table.entryAt`, `Table.home?`: the entry for a name in a scope, and the scope that a name is
  looked up in.
* `Entry.settled`, `Symbols.due`: nothing gives a variable its first value any more.
* `due_touched`, `due_insert`, `due_enter`, `due_exit`, `Settles.due`: what statements do to that.
-/
namespace TreeSema

variable {M N : Type}

/-! ## Scopes by number -/

namespace Table

/-- The entry for a name in the scope that has `d` others around it. -/
def entryIn (d : Nat) (name : Ident) : List (Scope M) → Option (Entry M)
  | [] => none
  | s :: outer => if outer.length = d then s.get? name else entryIn d name outer

/-- How many scopes there are around the innermost one that has a name. -/
def homeIn (name : Ident) : List (Scope M) → Option Nat
  | [] => none
  | s :: outer => if (s.get? name).isSome then some outer.length else homeIn name outer

/-- The entry for a name in a scope of a table; the number of the root scope is 0. -/
def entryAt (t : Table M) (d : Nat) (name : Ident) : Option (Entry M) := entryIn d name t.scopes

/-- The number of the scope that a name is looked up in. -/
def home? (t : Table M) (name : Ident) : Option Nat := homeIn name t.scopes

variable {d : Nat} {name : Ident} {ss : List (Scope M)} {t : Table M}

theorem homeIn_lt (h : homeIn name ss = some d) : d < ss.length := by
  induction ss with
  | nil => cases h
  | cons s outer ih =>
    unfold homeIn at h
    split at h
    · cases h
      exact Nat.lt_succ_self _
    · exact Nat.lt_succ_of_lt (ih h)

theorem findSome?_of_homeIn (h : homeIn name ss = some d) :
    ss.findSome? (·.get? name) = entryIn d name ss := by
  induction ss with
  | nil => cases h
  | cons s outer ih =>
    unfold homeIn at h
    unfold entryIn
    rw [List.findSome?_cons]
    split at h
    · rename_i hsome
      cases h
      obtain ⟨e, he⟩ := Option.isSome_iff_exists.1 hsome
      simp [he]
    · rename_i hnone
      have hlt := homeIn_lt h
      rw [Option.not_isSome_iff_eq_none.1 hnone, if_neg (by omega)]
      exact ih h

theorem entryAt_of_home (h : t.home? name = some d) : ∃ e, t.entryAt d name = some e := by
  unfold home? at h
  unfold entryAt
  generalize t.scopes = ss at h ⊢
  induction ss with
  | nil => cases h
  | cons s outer ih =>
    unfold homeIn at h
    unfold entryIn
    split at h
    · rename_i hsome
      cases h
      rw [if_pos rfl]
      exact Option.isSome_iff_exists.1 hsome
    · have hlt := homeIn_lt h
      rw [if_neg (by omega)]
      exact ih h

theorem lookup_of_home (h : t.home? name = some d) : t.lookup name = t.entryAt d name := by
  rw [lookup_eq_findSome?]
  exact findSome?_of_homeIn h

theorem entryIn_of_free (h : ∀ s ∈ ss, s.get? name = none) : entryIn d name ss = none := by
  induction ss with
  | nil => rfl
  | cons s outer ih =>
    obtain ⟨hs, houter⟩ := List.forall_mem_cons.1 h
    unfold entryIn
    split
    · exact hs
    · exact ih houter

theorem entryAt_of_free (h : t.lookup name = none) : t.entryAt d name = none :=
  entryIn_of_free (lookup_eq_none_iff.1 h)

theorem depth_of_contexts {t t' : Table M} (h : t.contexts = t'.contexts) : t.depth = t'.depth := by
  have hlength := congrArg List.length h
  simpa [length_contexts, depth] using hlength

theorem length_scopes (t : Table M) : t.scopes.length = t.depth + 1 := by
  simp [scopes, depth]

/-- What is put into the innermost scope leaves the others alone. -/
theorem entryAt_insert (t : Table M) (e : Entry M) (d : Nat) (name : Ident) :
    (t.insert e).entryAt d name
      = if t.depth = d ∧ name = e.name then some e else t.entryAt d name := by
  obtain ⟨outer, hscopes, hmodify⟩ := t.scopes_eq_cons
  have hlength : outer.length = t.depth := by
    have h := t.length_scopes
    rw [hscopes, List.length_cons] at h
    omega
  unfold entryAt insert
  rw [hmodify, hscopes]
  unfold entryIn
  rw [hlength]
  by_cases hd : t.depth = d
  · by_cases hname : name = e.name
    · simp [hd, hname, Scope.get?_put_self]
    · simp [hd, hname, Scope.get?_put_of_ne]
  · simp [hd]

/-- A scope that is open keeps its entries when another one is opened in it. -/
theorem entryAt_push (root s : Scope M) (rest : List (Scope M)) (hd : d ≤ rest.length) :
    (⟨root, s :: rest⟩ : Table M).entryAt d name = (⟨root, rest⟩ : Table M).entryAt d name := by
  have hlength : (rest ++ [root]).length ≠ d := by
    simp only [List.length_append, List.length_singleton]
    omega
  change entryIn d name (s :: (rest ++ [root])) = _
  rw [entryIn, if_neg hlength]
  rfl

/-! ## Changes where a name is looked up -/

theorem modifyIn_length {f : Entry M → Entry M} {ss' : List (Scope M)}
    (h : modifyIn name f ss = some ss') : ss'.length = ss.length := by
  induction ss generalizing ss' with
  | nil => cases h
  | cons s outer ih =>
    unfold modifyIn at h
    split at h
    · cases h
      rfl
    · obtain ⟨outer', houter, rfl⟩ := Option.map_eq_some_iff.1 h
      simp [ih houter]

theorem entryIn_modifyIn {f : Entry M → Entry M} (hf : ∀ e, (f e).name = e.name) {ss' outer}
    (h : modifyIn name f ss = some ss') (hhome : homeIn name (ss ++ outer) = some d) :
    entryIn d name (ss' ++ outer) = (entryIn d name (ss ++ outer)).map f := by
  induction ss generalizing ss' with
  | nil => cases h
  | cons s rest ih =>
    unfold modifyIn at h
    rw [List.cons_append, homeIn] at hhome
    split at h
    · rename_i hsome
      cases h
      rw [if_pos hsome] at hhome
      cases hhome
      simp [entryIn, Scope.get?_modify s name hf]
    · rename_i hnone
      obtain ⟨rest', hrest, rfl⟩ := Option.map_eq_some_iff.1 h
      rw [if_neg hnone] at hhome
      have hlt := homeIn_lt hhome
      have hlength : (rest' ++ outer).length = (rest ++ outer).length := by
        simp [modifyIn_length hrest]
      rw [List.cons_append, List.cons_append, entryIn, entryIn, if_neg (by omega),
        if_neg (by omega)]
      exact ih hrest hhome

theorem entryIn_modify_last {f : Entry M → Entry M} (hf : ∀ e, (f e).name = e.name) {root : Scope M}
    (h : modifyIn name f ss = none) (hhome : homeIn name (ss ++ [root]) = some d) :
    entryIn d name (ss ++ [root.modify name f]) = (entryIn d name (ss ++ [root])).map f := by
  induction ss with
  | nil =>
    rw [List.nil_append, homeIn] at hhome
    split at hhome
    · cases hhome
      simp [entryIn, Scope.get?_modify root name hf]
    · cases hhome
  | cons s rest ih =>
    unfold modifyIn at h
    rw [List.cons_append, homeIn] at hhome
    split at h
    · cases h
    · rename_i hnone
      rw [if_neg hnone] at hhome
      have hlt := homeIn_lt hhome
      have hlength : (rest ++ [root.modify name f]).length = (rest ++ [root]).length := by simp
      rw [List.cons_append, List.cons_append, entryIn, entryIn, if_neg (by omega),
        if_neg (by omega)]
      exact ih (Option.map_eq_none_iff.1 h) hhome

/-- A change to the entry that a name stands for. -/
theorem entryAt_modify {f : Entry M → Entry M} (hf : ∀ e, (f e).name = e.name)
    (h : t.home? name = some d) :
    (t.modify name f).entryAt d name = (t.entryAt d name).map f := by
  unfold modify
  split
  · rename_i stack hstack
    exact entryIn_modifyIn hf hstack h
  · rename_i hstack
    exact entryIn_modify_last hf hstack h

/-! ## Tables that are alike -/

variable {E : Entry M → Entry N → Prop} {t' : Table N}

theorem Rel.entryAt (hE : Entry.Matching E) (h : t.Rel E t') (d : Nat) (name : Ident) :
    Option.Rel E (t.entryAt d name) (t'.entryAt d name) := by
  have hscopes := h.scopes
  unfold Table.entryAt
  generalize t.scopes = ss, t'.scopes = ss' at hscopes ⊢
  induction hscopes with
  | nil => exact .none
  | cons hs houter ih =>
    unfold entryIn
    rw [houter.length_eq]
    split
    · exact hs.get? hE name
    · exact ih

theorem Rel.home? (hE : Entry.Matching E) (h : t.Rel E t') (name : Ident) :
    t.home? name = t'.home? name := by
  have hscopes := h.scopes
  unfold Table.home?
  generalize t.scopes = ss, t'.scopes = ss' at hscopes ⊢
  induction hscopes with
  | nil => rfl
  | cons hs houter ih =>
    unfold homeIn
    rw [Scope.rel_isSome (hs.get? hE name), houter.length_eq, ih]

end Table

/-! ## First values -/

/-- Is an entry something else than a variable that may still be initialized by an assignment? -/
def Entry.settled (e : Entry M) : Bool :=
  match e.kind with
  | .var v => v.mutable || v.initialized || v.storage != .automatic
  | _ => true

theorem Entry.settled_withValue (e : Entry M) : e.withValue.settled = true := by
  unfold Entry.withValue Entry.settled
  cases hk : e.kind <;> simp [hk]

/-- 1 as long as a variable of the scope with number `d` may get its first value. -/
def Symbols.due (t : Symbols) (d : Nat) (x : Ident) : Nat :=
  if (t.entryAt d x).any Entry.settled then 0 else 1

namespace Symbols

variable {t t' : Symbols} {d : Nat} {x : Ident} {e : SymbolEntry}

theorem due_le_one (t : Symbols) (d : Nat) (x : Ident) : t.due d x ≤ 1 := by
  unfold due
  split <;> omega

theorem due_of_entryAt (h : t.entryAt d x = some e) (he : e.settled = true) : t.due d x = 0 := by
  simp [due, h, he]

theorem due_of_open (h : t.entryAt d x = some e) (he : e.settled = false) : t.due d x = 1 := by
  simp [due, h, he]

theorem due_of_free (h : t.lookup x = none) : t.due d x = 1 := by
  simp [due, Table.entryAt_of_free h]

end Symbols

theorem Entry.Touched.settled {e e' : Entry M} (h : e.Touched e') (he : e.settled = true) :
    e'.settled = true := by
  rcases h with rfl | rfl
  · exact he
  · exact e.settled_withValue

namespace Symbols

variable {t t' : Symbols} {d : Nat} {x : Ident} {e : SymbolEntry}

theorem due_touched (h : t.Touched t') (d : Nat) (x : Ident) : t'.due d x ≤ t.due d x := by
  have hrel := Table.Rel.entryAt Entry.Touched.matching h d x
  unfold due
  generalize t.entryAt d x = e, t'.entryAt d x = e' at hrel ⊢
  cases hrel with
  | none => exact Nat.le_refl _
  | @some e e' he =>
    cases hsettled : e.settled with
    | true => simp [he.settled hsettled]
    | false =>
      simp only [Option.any_some, hsettled]
      split <;> decide

theorem due_insert (h : t.lookup e.name = none ∨ e.settled = true) (d : Nat) (x : Ident) :
    due (t.insert e) d x ≤ t.due d x := by
  rcases h with hfree | hsettled
  · by_cases hx : x = e.name
    · rw [hx, due_of_free hfree]
      exact due_le_one _ _ _
    · simp [due, Table.entryAt_insert, hx]
  · by_cases hx : t.depth = d ∧ x = e.name
    · have hentry : (t.insert e).entryAt d x = some e := by rw [Table.entryAt_insert, if_pos hx]
      rw [due_of_entryAt hentry hsettled]
      exact Nat.zero_le _
    · simp [due, Table.entryAt_insert, hx]

theorem due_foldl_insert : ∀ {es : List SymbolEntry} (t : Symbols), (∀ e ∈ es, e.settled = true) →
    due (es.foldl Table.insert t) d x ≤ t.due d x
  | [], _, _ => Nat.le_refl _
  | e :: es, t, hes => by
    obtain ⟨he, hrest⟩ := List.forall_mem_cons.1 hes
    exact Nat.le_trans (due_foldl_insert (t.insert e) hrest) (due_insert (.inr he) d x)

theorem due_enter (hd : d ≤ t.depth) (context : Context) (x : Ident) :
    due (t.enter context) d x = t.due d x := by
  unfold due
  rw [show (t.enter context).entryAt d x = t.entryAt d x from Table.entryAt_push _ _ _ hd]

/-- What a scope hands on when it is closed is defined and no variable. -/
theorem due_exit (ht : t.Sound) (hd : d < t.depth) (x : Ident) : due t.exit d x ≤ t.due d x := by
  obtain ⟨root, _ | ⟨s, rest⟩⟩ := t
  · cases hd
  · have hstatics : ∀ e ∈ s.statics, e.settled = true := by
      intro e he
      have hs : s ∈ (⟨root, s :: rest⟩ : Symbols).scopes := .head _
      obtain hpersistent := (ht.apart.orderly s hs).mem_statics.1 he
      have hvar := ht.not_var_of_defines ⟨s, hs, hpersistent⟩
      unfold Entry.settled
      split
      · rename_i v hv
        exact absurd hv (hvar v)
      · rfl
    have hpush : due ⟨root, s :: rest⟩ d x = due ⟨root, rest⟩ d x := by
      unfold due
      rw [Table.entryAt_push root s rest (Nat.le_of_lt_succ hd)]
    rw [hpush]
    exact due_foldl_insert _ hstatics

end Symbols

namespace Analysis

variable {s s' : State} {h : Head}

theorem InsertsFree.due {es} (hi : InsertsFree s es s') (d : Nat) (x : Ident) :
    s'.table.due d x ≤ s.table.due d x := by
  induction hi with
  | nil => exact Nat.le_refl _
  | taken _ ih => exact ih
  | free hfree _ ih => exact Nat.le_trans ih (Symbols.due_insert (.inl hfree) d x)

theorem Registers.due (hr : Registers s h s') (d : Nat) (x : Ident) :
    s'.table.due d x ≤ s.table.due d x := by
  cases hr with
  | entry hfree he => exact Symbols.due_insert (.inl (he.name ▸ hfree)) d x
  | variant hfree _ _ _ hstructs =>
    exact Nat.le_trans (hstructs.due d x) (Symbols.due_insert (.inr rfl) d x)

theorem Settles.due (hs : Settles s h s') (d : Nat) (x : Ident) :
    s'.table.due d x ≤ s.table.due d x := by
  cases hs with
  | taken _ touches _ => exact Symbols.due_touched touches.table d x
  | added before registers after =>
    calc s'.table.due d x
      _ ≤ _ := Symbols.due_touched after.table d x
      _ ≤ _ := registers.due d x
      _ ≤ s.table.due d x := Symbols.due_touched before.table d x

end Analysis

end TreeSema
