import TreeSema.Proofs.Coercion.Compatible

/-!
# Compatibility is a preorder

Coercions compose: a reference that became a pointer may be used for any pointer that it could have
become at once, at whatever depth this happens, sizes of arrays never matter, and a value that never
arises fits everywhere. Aliases do not get in the way, since a comparison is one of normal forms, and
the type in the middle has only one.

* `Ty.Coerces.trans`: two coercions in a row are one.
* `Symbols.compatible_iff_of_normIn`: a comparison of types whose normal forms were computed.
* `Symbols.compatible_preorder`: every type is compatible with itself, and a value that may be passed
  on from variable to variable may be passed at once.
-/
namespace TreeSema

namespace Ty

variable {a b c : Ty}

/-- Types that fit in a row fit, if their parts do. The type in the middle is a pointer, a reference,
an array or a tuple, and a reference can stand for a pointer on either side of it. -/
theorem Fits.trans {R : Ty → Ty → Prop} (h : Fits R a b) (h' : Fits R b c)
    (htrans : ∀ x y z : Ty, x.size < a.size → R x y → R y z → R x z) : Fits R a c := by
  cases h with
  | decay h =>
    cases h' with
    | ref h' => exact .decay (htrans _ _ _ (Nat.lt_succ_self _) h h')
  | ptr h =>
    cases h' with
    | decay h' => exact .decay (htrans _ _ _ (Nat.lt_succ_self _) h h')
    | ptr h' => exact .ptr (htrans _ _ _ (Nat.lt_succ_self _) h h')
  | ref h =>
    cases h' with
    | ref h' => exact .ref (htrans _ _ _ (Nat.lt_succ_self _) h h')
  | array h =>
    cases h' with
    | array h' => exact .array (htrans _ _ _ (Nat.lt_succ_self _) h h')
  | tuple h =>
    cases h' with
    | tuple h' =>
      refine .tuple (forall₂_comp h h' fun x hx y z => htrans x y z ?_)
      exact Nat.lt_succ_of_le (size_le_of_mem hx)

/-- Nothing but a value that never arises can be used for one. -/
theorem Coerces.eq_never (h : Coerces (basic .never) c) : c = basic .never := by
  cases h with
  | never => rfl
  | parts h => cases h
  | same => rfl

/-- Two coercions in a row are one. By induction on the size of the expected type, of which the parts
are expected in turn. -/
theorem Coerces.trans (h : Coerces a b) (h' : Coerces b c) : Coerces a c := by
  induction hsize : a.size using Nat.strongRecOn generalizing a b c with
  | ind n ih =>
    cases h with
    | same => exact h'
    | never =>
      rw [h'.eq_never]
      exact .never
    | parts h =>
      cases h' with
      | never => exact .never
      | same => exact .parts h
      | parts h' =>
        refine .parts (h.trans h' fun x y z hlt hxy hyz => ?_)
        exact ih x.size (hsize ▸ hlt) hxy hyz rfl

end Ty

namespace Symbols

variable {t : Symbols} {expected actual E A : Ty}

/-- A comparison is one of the normal forms, which are found within the reach of each type. -/
theorem compatible_iff_of_normIn (ht : t.Acyclic) (hE : t.normIn (t.reach expected) expected = some E)
    (hA : t.normIn (t.reach actual) actual = some A) :
    t.compatible expected actual = true ↔ Ty.Coerces E A := by
  refine compatibleIn_iff ht hE hA ?_
  have hreach := Nat.add_sub_one_le_mul (reach_ne_zero t expected) (reach_ne_zero t actual)
  omega

theorem compatible_refl (t : Symbols) (ty : Ty) : t.compatible ty ty = true :=
  compatibleIn_succ.2 (.inl rfl)

theorem compatible_trans (ht : t.Acyclic) {a b c} (h : t.compatible a b = true)
    (h' : t.compatible b c = true) : t.compatible a c = true := by
  obtain ⟨A, hA⟩ := normIn_total ht a
  obtain ⟨B, hB⟩ := normIn_total ht b
  obtain ⟨C, hC⟩ := normIn_total ht c
  have hAB : Ty.Coerces A B := (compatible_iff_of_normIn ht hA hB).1 h
  have hBC : Ty.Coerces B C := (compatible_iff_of_normIn ht hB hC).1 h'
  exact (compatible_iff_of_normIn ht hA hC).2 (hAB.trans hBC)

/-- The first of some types is compatible with the last, if each is with the next. -/
theorem compatible_of_chain (ht : t.Acyclic) {a c between}
    (h : (a :: (between ++ [c])).IsChain fun e x => t.compatible e x = true) :
    t.compatible a c = true := by
  induction between generalizing a with
  | nil => exact (List.isChain_cons_cons.1 h).1
  | cons b between ih =>
    obtain ⟨hab, hrest⟩ := List.isChain_cons_cons.1 h
    exact compatible_trans ht hab (ih hrest)

/-- In a table in which no alias is reached from its own target, compatibility is a preorder. So a
value that is passed on through variables of the types `between`, each of which may hold what the
next one holds, is accepted at once where the first type is expected. -/
theorem compatible_preorder (ht : t.Acyclic) :
    (∀ a, t.compatible a a = true) ∧
    (∀ a b c, t.compatible a b = true → t.compatible b c = true → t.compatible a c = true) ∧
    ∀ (a c : Ty) (between : List Ty),
      (a :: (between ++ [c])).IsChain (fun e x => t.compatible e x = true) →
      ∀ (loc : Location) (s : Analysis.State), s.table = t →
        Analysis.accepts a c loc s = (true, s) := by
  refine ⟨compatible_refl t, fun _ _ _ => compatible_trans ht, ?_⟩
  rintro a c between hchain loc s rfl
  have hcompatible := compatible_of_chain ht hchain
  simp [Analysis.accepts, Analysis.bind_apply, Analysis.symbols_apply, Analysis.pure_apply,
    hcompatible]

/-- A reference to an array goes into a pointer to an alias of a longer array and from there, through
an alias of a pointer, into a pointer to an array of another size. -/
theorem compatible_preorder_decays :
    let define : String → Ty → Node := fun x type =>
      .leaf { kind := .aliasDef, loc := {}, name := .name x, type }
    let t := (Analysis.finished {} .written 1000
      [define "A" (.array 3 (.basic .i32)), define "P" (.ptr (.custom [.name "A"]))]).table
    let expected : Ty := .ptr (.array 7 (.basic .i32))
    let between : List Ty := [.custom [.name "P"], .ptr (.custom [.name "A"])]
    let actual : Ty := .ref (.array 5 (.basic .i32)) true
    t.Acyclic ∧ (expected :: (between ++ [actual])).IsChain (fun e x => t.compatible e x = true) ∧
      t.compatible actual expected = false ∧
      Analysis.accepts expected actual {} { table := t } = (true, { table := t }) := by
  intro define t expected between actual
  have ht : t.Acyclic := by
    refine acyclic_of_rank (fun x => if x = .name "P" then 2 else if x = .name "A" then 1 else 0) ?_
    decide +kernel
  have hchain : (expected :: (between ++ [actual])).IsChain
      fun e x => t.compatible e x = true := by
    decide +kernel
  exact ⟨ht, hchain, by decide +kernel,
    (compatible_preorder ht).2.2 expected actual between hchain {} { table := t } rfl⟩

end Symbols

end TreeSema
