import TreeSema.Proofs.Coercion.Norm
import TreeSema.Proofs.Course.Visits

/-!
# Compatibility is coercion without aliases

Two types are compared step by step, and at each step an alias on either side may be replaced by what
it stands for, the comparison starting anew. It does not matter where and in which order this
happens: the answer is that of one comparison of the normal forms, in which there are no aliases to
replace.

* `Ty.Coerces`: what can be used for what, on types without aliases.
* `Ty.Fits.transfer`: the parts of types are compared alike if the parts correspond.
* `Symbols.compatibleIn_iff`: a comparison that looks deep enough.
* `Symbols.compatible_iff_coerces`: any comparison, in a table without cyclic aliases.
-/
namespace TreeSema

/-! ## Coercion -/

namespace Ty

/-- An expected type and an actual one have the same form and related parts. A reference may stand
for a pointer, and an array for one of another size. -/
inductive Fits (R : Ty → Ty → Prop) : Ty → Ty → Prop
  | decay {e a m} (h : R e a) : Fits R (ptr e) (ref a m)
  | ptr {e a} (h : R e a) : Fits R (ptr e) (ptr a)
  | ref {e a m} (h : R e a) : Fits R (ref e m) (ref a m)
  | array {k l e a} (h : R e a) : Fits R (array k e) (array l a)
  | tuple {es as} (h : List.Forall₂ R es as) : Fits R (tuple es) (tuple as)

/-- A value of the second type can be used where the first is expected. -/
inductive Coerces : Ty → Ty → Prop
  | never {e} : Coerces e (basic .never)
  | parts {e a} (h : Fits Coerces e a) : Coerces e a
  | same {e} : Coerces e e

variable {R R' S T : Ty → Ty → Prop} {e a E A : Ty}

theorem Over.flip (h : Over R e E) : Over (fun v t => R t v) E e := by
  cases h with
  | ref h => exact .ref h
  | ptr h => exact .ptr h
  | array h => exact .array h
  | tuple h => exact .tuple h.flip
  | plain h => exact .plain h

theorem forall₂_transfer (hpart : ∀ x X y Y, R x X → R' y Y → S x y → T X Y) {es as Es As}
    (h : List.Forall₂ S es as) (he : List.Forall₂ R es Es) (ha : List.Forall₂ R' as As) :
    List.Forall₂ T Es As := by
  have hright : List.Forall₂ (fun x Y => ∃ y, S x y ∧ R' y Y) es As :=
    forall₂_comp h ha fun _ _ y _ hxy hyY => ⟨y, hxy, hyY⟩
  exact forall₂_comp he.flip hright fun _ _ _ _ hxX ⟨_, hxy, hyY⟩ => hpart _ _ _ _ hxX hyY hxy

/-- If parts correspond, types that fit have corresponding types that fit. -/
theorem Fits.transfer (hpart : ∀ x X y Y, R x X → R' y Y → S x y → T X Y) (h : Fits S e a)
    (he : Over R e E) (ha : Over R' a A) : Fits T E A := by
  cases h with
  | decay h =>
    cases he with
    | ptr he =>
      cases ha with
      | ref ha => exact .decay (hpart _ _ _ _ he ha h)
      | plain hplain => cases hplain
    | plain hplain => cases hplain
  | ptr h =>
    cases he with
    | ptr he =>
      cases ha with
      | ptr ha => exact .ptr (hpart _ _ _ _ he ha h)
      | plain hplain => cases hplain
    | plain hplain => cases hplain
  | ref h =>
    cases he with
    | ref he =>
      cases ha with
      | ref ha => exact .ref (hpart _ _ _ _ he ha h)
      | plain hplain => cases hplain
    | plain hplain => cases hplain
  | array h =>
    cases he with
    | array he =>
      cases ha with
      | array ha => exact .array (hpart _ _ _ _ he ha h)
      | plain hplain => cases hplain
    | plain hplain => cases hplain
  | tuple h =>
    cases he with
    | tuple he =>
      cases ha with
      | tuple ha => exact .tuple (forall₂_transfer hpart h he ha)
      | plain hplain => cases hplain
    | plain hplain => cases hplain

theorem Over.eq_of_plain (h : Over R e E) (hE : E.isPlain = true) : e = E := by
  cases h with
  | plain => rfl
  | _ => cases hE

theorem fits_refl (hE : E.isPlain = false) : Fits Eq E E := by
  cases E with
  | ref => exact .ref rfl
  | ptr => exact .ptr rfl
  | array => exact .array rfl
  | tuple => exact .tuple (List.forall₂_refl _)
  | _ => cases hE

/-- Types that correspond to the same type are the same, or fit. -/
theorem fits_of_same (hpart : ∀ x y X, R x X → R' y X → S x y) (he : Over R e E)
    (ha : Over R' a E) : e = a ∨ Fits S e a := by
  cases hE : E.isPlain with
  | true => exact .inl ((he.eq_of_plain hE).trans (ha.eq_of_plain hE).symm)
  | false =>
    refine .inr ((fits_refl hE).transfer ?_ he.flip ha.flip)
    rintro X x _ y hx hy rfl
    exact hpart x y X hx hy

end Ty

/-! ## Comparisons -/

namespace Symbols

variable {t : Symbols} {fuel m n : Nat} {e a E A : Ty}

theorem zip_all_iff {f : Ty → Ty → Bool} {es as : List Ty} :
    (es.length == as.length && (es.zip as).all fun p => f p.1 p.2) = true ↔
      List.Forall₂ (fun e a => f e a = true) es as := by
  simp only [Bool.and_eq_true, beq_iff_eq, List.all_eq_true, List.forall₂_iff_zip]
  exact and_congr_right fun _ => ⟨fun h _ _ hp => h _ hp, fun h _ hp => h hp⟩

/-- One step of a comparison. -/
theorem compatibleIn_succ : t.compatibleIn (fuel + 1) e a = true ↔
    e = a ∨ a = .basic .never ∨
      (∃ value, t.aliasValue? e = some value ∧ t.compatibleIn fuel value a = true) ∨
      (∃ value, t.aliasValue? a = some value ∧ t.compatibleIn fuel e value = true) ∨
      Ty.Fits (fun e a => t.compatibleIn fuel e a = true) e a := by
  have hnever : a.isNever = true ↔ a = .basic .never := by
    unfold Ty.isNever
    split <;> simp_all
  conv => lhs; unfold compatibleIn
  simp only [Bool.or_eq_true, or_assoc]
  refine or_congr (Ty.equal_iff e a) (or_congr hnever (or_congr ?_ (or_congr ?_ ?_)))
  · cases t.aliasValue? e <;> simp
  · cases t.aliasValue? a <;> simp
  · constructor
    · intro h
      split at h
      · exact .decay h
      · exact .ptr h
      · obtain ⟨hmutable, hinner⟩ := Bool.and_eq_true_iff.1 h
        cases eq_of_beq hmutable
        exact .ref hinner
      · exact .array h
      · exact .tuple (zip_all_iff.1 h)
      · cases h
    · intro h
      cases h with
      | decay h => exact h
      | ptr h => exact h
      | ref h => exact Bool.and_eq_true_iff.2 ⟨beq_self_eq_true _, h⟩
      | array h => exact h
      | tuple h => exact zip_all_iff.2 h

/-- A type with a value as an alias is the name of one. -/
theorem standsFor?_of_aliasValue? {value} (h : t.aliasValue? e = some value) :
    ∃ path target, e = .custom path ∧ t.standsFor? path = some target := by
  unfold aliasValue? at h
  cases e with
  | custom path =>
    rw [aliasStep?_custom] at h
    cases htarget : t.standsFor? path with
    | none => simp [htarget] at h
    | some target => exact ⟨path, target, rfl, htarget⟩
  | _ => cases h

/-- What an alias is replaced by in a comparison has the same normal form, less deep. -/
theorem normIn_of_aliasValue? (ht : t.Acyclic) {value} (h : t.aliasValue? e = some value)
    (he : t.normIn m e = some E) : ∃ k < m, t.normIn k value = some E := by
  obtain ⟨path, target, rfl, htarget⟩ := standsFor?_of_aliasValue? h
  obtain ⟨value', hvalue', hnorm⟩ := aliasValue?_norm ht htarget he
  cases h.symm.trans hvalue'
  exact hnorm

/-- A comparison that looks deep enough is one of the normal forms. -/
theorem compatibleIn_iff (ht : t.Acyclic) (he : t.normIn m e = some E) (ha : t.normIn n a = some A)
    (hfuel : m + n ≤ fuel + 1) : t.compatibleIn fuel e a = true ↔ Ty.Coerces E A := by
  -- the alias or the part that is looked at next is less deep, so that the fuel is enough for it
  induction fuel generalizing m n e a E A with
  | zero =>
    have hm := pos_of_normIn he
    have hn := pos_of_normIn ha
    omega
  | succ fuel ih =>
    obtain ⟨m, rfl⟩ := Nat.exists_eq_add_one.2 (pos_of_normIn he)
    obtain ⟨n, rfl⟩ := Nat.exists_eq_add_one.2 (pos_of_normIn ha)
    have hpart : ∀ {x y X Y}, t.normIn m x = some X → t.normIn n y = some Y →
        (t.compatibleIn fuel x y = true ↔ Ty.Coerces X Y) := fun hx hy => ih hx hy (by omega)
    rw [compatibleIn_succ]
    constructor
    · rintro (rfl | rfl | ⟨value, hvalue, h⟩ | ⟨value, hvalue, h⟩ | h)
      · rw [(norm_of_normIn he).eq_of_normIn ha]
        exact .same
      · cases ha
        exact .never
      · obtain ⟨k, hk, hnorm⟩ := normIn_of_aliasValue? ht hvalue he
        exact (ih hnorm ha (by omega)).1 h
      · obtain ⟨k, hk, hnorm⟩ := normIn_of_aliasValue? ht hvalue ha
        exact (ih he hnorm (by omega)).1 h
      · rcases normIn_succ.1 he with ⟨path, target, rfl, -⟩ | ⟨-, hE⟩
        · cases h
        · rcases normIn_succ.1 ha with ⟨path, target, rfl, -⟩ | ⟨-, hA⟩
          · cases h
          · refine .parts (h.transfer ?_ hE hA)
            exact fun _ _ _ _ hx hy => (hpart hx hy).1
    · intro h
      rcases normIn_succ.1 he with ⟨path, target, rfl, htarget, -⟩ | ⟨-, hE⟩
      · obtain ⟨value, hvalue, k, hk, hnorm⟩ := aliasValue?_norm ht htarget he
        exact .inr (.inr (.inl ⟨value, hvalue, (ih hnorm ha (by omega)).2 h⟩))
      · rcases normIn_succ.1 ha with ⟨path, target, rfl, htarget, -⟩ | ⟨-, hA⟩
        · obtain ⟨value, hvalue, k, hk, hnorm⟩ := aliasValue?_norm ht htarget ha
          exact .inr (.inr (.inr (.inl ⟨value, hvalue, (ih he hnorm (by omega)).2 h⟩)))
        · cases h with
          | never => exact .inr (.inl (hA.eq_of_plain rfl))
          | parts h =>
            refine .inr (.inr (.inr (.inr (h.transfer ?_ hE.flip hA.flip))))
            exact fun _ _ _ _ hx hy => (hpart hx hy).2
          | same =>
            have hsame : e = a ∨ Ty.Fits (fun e a => t.compatibleIn fuel e a = true) e a := by
              refine Ty.fits_of_same ?_ hE hA
              exact fun _ _ _ hx hy => (hpart hx hy).2 .same
            exact hsame.imp_right fun h => .inr (.inr (.inr h))

theorem reach_ne_zero (t : Symbols) (ty : Ty) : t.reach ty ≠ 0 :=
  Nat.ne_of_gt (Nat.lt_of_lt_of_le ty.size_pos (Nat.le_add_right _ _))

/-- In a table in which no alias is reached from its own target every type has one normal form, and
a value can be used where a type is expected if, and only if, its normal form coerces. -/
theorem compatible_iff_coerces (ht : t.Acyclic) (expected actual : Ty) :
    (∃! E, t.Norm expected E) ∧ (∃! A, t.Norm actual A) ∧
      ∀ E A, t.Norm expected E → t.Norm actual A →
        (t.compatible expected actual = true ↔ Ty.Coerces E A) := by
  obtain ⟨E, hE⟩ := normIn_total ht expected
  obtain ⟨A, hA⟩ := normIn_total ht actual
  refine ⟨⟨E, norm_of_normIn hE, fun _ h => h.eq_of_normIn hE⟩,
    ⟨A, norm_of_normIn hA, fun _ h => h.eq_of_normIn hA⟩, fun E' A' hE' hA' => ?_⟩
  rw [hE'.eq_of_normIn hE, hA'.eq_of_normIn hA]
  refine compatibleIn_iff ht hE hA ?_
  have hreach := Nat.add_sub_one_le_mul (reach_ne_zero t expected) (reach_ne_zero t actual)
  omega

/-- An alias of a tuple is expected, with an alias of a pointer and an array in it; a tuple of a
reference and a longer array serves. All of them lead to a struct of a module through an alias of
that module. -/
theorem compatible_iff_coerces_nested :
    let define : String → Ty → Node := fun x type =>
      .leaf { kind := .aliasDef, loc := {}, name := .name x, type }
    let inner : Ty := .custom [.name "m", .name "A"]
    let struct : Ty := .custom [.name "m", .name "S"]
    let t := (Analysis.finished {} .written 1000
      [.inModule "m" [.record "S" [], define "A" (.custom [.name "S"])], define "P" (.ptr inner),
        define "T" (.tuple [.custom [.name "P"], .array 3 inner])]).table
    let expected : Ty := .custom [.name "T"]
    let actual : Ty := .tuple [.ref inner true, .array 5 struct]
    t.Acyclic ∧ t.Norm expected (.tuple [.ptr struct, .array 3 struct]) ∧
      t.Norm actual (.tuple [.ref struct true, .array 5 struct]) ∧
        t.compatible expected actual = true := by
  intro define inner struct t expected actual
  have ht : t.Acyclic := by
    refine acyclic_of_rank (fun x => if x = .name "T" then 3 else if x = .name "P" then 2 else
      if x = .name "A" then 1 else 0) ?_
    decide +kernel
  have hexpected : t.Norm expected (.tuple [.ptr struct, .array 3 struct]) :=
    norm_of_normIn (n := 9) (by decide +kernel)
  have hactual : t.Norm actual (.tuple [.ref struct true, .array 5 struct]) :=
    norm_of_normIn (n := 9) (by decide +kernel)
  have hcoerces : Ty.Coerces (.tuple [.ptr struct, .array 3 struct])
      (.tuple [.ref struct true, .array 5 struct]) :=
    .parts (.tuple (.cons (.parts (.decay .same)) (.cons (.parts (.array .same)) .nil)))
  obtain ⟨-, -, hiff⟩ := compatible_iff_coerces ht expected actual
  exact ⟨ht, hexpected, hactual, (hiff _ _ hexpected hactual).2 hcoerces⟩

end Symbols

end TreeSema
