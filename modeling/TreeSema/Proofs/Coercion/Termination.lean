import TreeSema.Proofs.Coercion.Compatible
import Mathlib.Order.WellFounded

/-!
# Comparing and dereferencing come to an end

A comparison of types goes down into their parts and replaces aliases on the way, one side at a
time, by targets that may be larger than the types around them. Going through references and pointers
does the same with one type. What makes them end is that no alias is reached from its own target: the
normal form of a type is found a number of steps deep, and a step takes at least one of them off on
one side and adds none on the other.

Both are computed with a bound on the number of steps. `Terminates` says that the bound is not felt:
a step asks for nothing but what is listed in a well-founded relation, and the answer is the same
with any larger bound.

* `Symbols.Leads`: the target of an alias has the name of another alias in it.
* `Symbols.acyclic_of_wellFounded`: if that is well-founded, no alias is reached from its own
  target.
* `Symbols.Asks.less_deep`, `Symbols.Peels.less_deep`: what a comparison or a dereferencing goes on
  with is less deep.
* `Symbols.compatible_terminates`: comparing, dereferencing and crossing places terminate.
-/
namespace TreeSema

/-- A computation that takes at most so many steps is one that ends by itself. It asks only for
answers that come before its own in a well-founded relation, and with `bound` steps or more it has
always the same result. -/
structure Terminates {α β : Type} (asks : α → α → Prop) (answer : Nat → α → β) (bound : α → Nat)
    (result : α → β) : Prop where
  wellFounded : WellFounded fun b a => asks a b
  covered : ∀ {m n : Nat} {a : α}, (∀ b, asks a b → answer m b = answer n b) →
    answer (m + 1) a = answer (n + 1) a
  settled : ∀ {n : Nat} {a : α}, bound a ≤ n → answer n a = result a

/-- A computation terminates if what it asks for is less deep. -/
theorem Terminates.of_depth {α β : Type} {asks : α → α → Prop} {answer : Nat → α → β}
    {bound : α → Nat} {result : α → β} (deep : Nat → α → Prop) (hpos : ∀ a, ¬ deep 0 a)
    (hstep : ∀ {d a b}, deep (d + 1) a → asks a b → ∃ d' ≤ d, deep d' b)
    (hbound : ∀ a, ∃ d ≤ bound a, deep d a)
    (hcovered : ∀ {m n : Nat} {a : α}, (∀ b, asks a b → answer m b = answer n b) →
      answer (m + 1) a = answer (n + 1) a)
    (hresult : ∀ a, answer (bound a) a = result a) : Terminates asks answer bound result := by
  have hacc : ∀ n d, d ≤ n → ∀ a, deep d a → Acc (fun b a => asks a b) a := by
    intro n
    induction n with
    | zero =>
      intro d hd a ha
      cases Nat.le_zero.1 hd
      exact absurd ha (hpos a)
    | succ n ih =>
      intro d hd a ha
      refine ⟨a, fun b hb => ?_⟩
      cases d with
      | zero => exact absurd ha (hpos a)
      | succ d =>
        obtain ⟨d', hd', hb⟩ := hstep ha hb
        exact ih d' (by omega) b hb
  have hsame : ∀ m n d a, deep d a → d ≤ m → d ≤ n → answer m a = answer n a := by
    intro m
    induction m with
    | zero =>
      intro n d a ha hm
      cases Nat.le_zero.1 hm
      exact absurd ha (hpos a)
    | succ m ih =>
      intro n d a ha hm hn
      cases d with
      | zero => exact absurd ha (hpos a)
      | succ d =>
        obtain ⟨n, rfl⟩ : ∃ k, n = k + 1 := ⟨n - 1, by omega⟩
        refine hcovered fun b hb => ?_
        obtain ⟨d', hd', hb⟩ := hstep ha hb
        exact ih n d' b hb (by omega) (by omega)
  refine ⟨⟨fun a => ?_⟩, hcovered, fun {n a} hn => ?_⟩
  · obtain ⟨d, -, ha⟩ := hbound a
    exact hacc d d (Nat.le_refl d) a ha
  · obtain ⟨d, hd, ha⟩ := hbound a
    rw [← hresult a]
    exact hsame n (bound a) d a ha (Nat.le_trans hd hn) hd

namespace Symbols

variable {t : Symbols}

/-! ## Aliases in the targets of others -/

/-- The target of an alias, as it is written from here along some path to the alias, has a name in
it that leads to another alias. -/
def Leads (t : Symbols) (one other : List Ident) : Prop :=
  ∃ path path', t.Mentions path path' ∧ (t.standsFor? path').isSome ∧
    t.canonical path = one ∧ t.canonical path' = other

theorem leads_of_reach {path path'} (h : Relation.TransGen t.Mentions path path')
    (hsome : (t.standsFor? path').isSome) :
    Relation.TransGen t.Leads (t.canonical path) (t.canonical path') := by
  induction h with
  | single hmentions => exact .single ⟨_, _, hmentions, hsome, rfl, rfl⟩
  | tail _ hmentions ih =>
    have hbetween := hmentions
    obtain ⟨target, htarget, -⟩ := hbetween
    exact (ih (by rw [htarget]; rfl)).tail ⟨_, _, hmentions, hsome, rfl, rfl⟩

/-- If there is no endless chain of aliases, each with the name of the next in its target, then no
alias is reached from its own target. -/
theorem acyclic_of_wellFounded (h : WellFounded fun other one => t.Leads one other) :
    t.Acyclic := by
  intro path path' hreach hsome heq
  have hcycle := leads_of_reach hreach hsome
  rw [heq] at hcycle
  exact h.transGen.irrefl.irrefl _ (Relation.transGen_swap.2 hcycle)

theorem wellFounded_of_rank (rank : Ident → Nat) (h : t.Ranked rank) :
    WellFounded fun other one => t.Leads one other := by
  refine Subrelation.wf ?_ (measure fun x : List Ident => rank (x.getLastD .missing)).wf
  rintro _ _ ⟨path, path', hmentions, hsome, rfl, rfl⟩
  change rank ((t.canonical path').getLastD .missing) < rank ((t.canonical path).getLastD .missing)
  have hpath : path ≠ [] := by
    obtain ⟨target, htarget, -⟩ := hmentions
    exact ne_nil_of_standsFor? (t := t) (by rw [htarget]; rfl)
  rw [getLastD_canonical hpath, getLastD_canonical (ne_nil_of_standsFor? hsome)]
  exact h.lt_of_mentions hmentions

/-! ## Depth -/

/-- The normal form of a type is found within so many steps. -/
def Deep (t : Symbols) (n : Nat) (ty : Ty) : Prop := (t.normIn n ty).isSome

theorem not_deep_zero (ty : Ty) : ¬ t.Deep 0 ty := nofun

variable {n : Nat} {ty : Ty}

/-- The parts of a type are less deep. -/
theorem deep_ref {m : Bool} : t.Deep (n + 1) (.ref ty m) ↔ t.Deep n ty := by
  simp [Deep, normIn]

theorem deep_ptr : t.Deep (n + 1) (.ptr ty) ↔ t.Deep n ty := by
  simp [Deep, normIn]

theorem deep_array {size : Int} : t.Deep (n + 1) (.array size ty) ↔ t.Deep n ty := by
  simp [Deep, normIn]

theorem deep_of_tuple {tys} (h : t.Deep (n + 1) (.tuple tys)) (hty : ty ∈ tys) : t.Deep n ty := by
  unfold Deep normIn at h
  rw [Option.isSome_map] at h
  obtain ⟨vs, hvs⟩ := Option.isSome_iff_exists.1 h
  obtain ⟨v, -, hv⟩ := exists_of_forall₂_left (mapM_eq_some_iff.1 hvs) hty
  exact Option.isSome_iff_exists.2 ⟨v, hv⟩

/-- What an alias stands for in the end is less deep. -/
theorem deep_of_aliasValue? (ht : t.Acyclic) {value} (h : t.aliasValue? ty = some value)
    (hty : t.Deep (n + 1) ty) : ∃ k ≤ n, t.Deep k value := by
  obtain ⟨v, hv⟩ := Option.isSome_iff_exists.1 hty
  obtain ⟨k, hk, hnorm⟩ := normIn_of_aliasValue? ht h hv
  exact ⟨k, Nat.le_of_lt_succ hk, Option.isSome_iff_exists.2 ⟨v, hnorm⟩⟩

theorem deep_reach (ht : t.Acyclic) (ty : Ty) : t.Deep (t.reach ty) ty := by
  obtain ⟨v, hv⟩ := normIn_total ht ty
  exact Option.isSome_iff_exists.2 ⟨v, hv⟩

/-! ## Comparing -/

/-- A comparison of an expected and an actual type asks for another one: with an alias replaced by
what it stands for on one side, or of parts. -/
inductive Asks (t : Symbols) : Ty × Ty → Ty × Ty → Prop
  | expected {e a value} (h : t.aliasValue? e = some value) : Asks t (e, a) (value, a)
  | actual {e a value} (h : t.aliasValue? a = some value) : Asks t (e, a) (e, value)
  | decay {e a m} : Asks t (.ptr e, .ref a m) (e, a)
  | ptr {e a} : Asks t (.ptr e, .ptr a) (e, a)
  | ref {e a m} : Asks t (.ref e m, .ref a m) (e, a)
  | array {k l e a} : Asks t (.array k e, .array l a) (e, a)
  | tuple {es as : List Ty} {e a} (hlength : es.length = as.length) (h : (e, a) ∈ es.zip as) :
    Asks t (.tuple es, .tuple as) (e, a)

/-- Two types are so deep together that a comparison of them takes at most so many steps. -/
def DeepPair (t : Symbols) (d : Nat) (p : Ty × Ty) : Prop :=
  ∃ m n, t.Deep (m + 1) p.1 ∧ t.Deep (n + 1) p.2 ∧ m + n + 1 = d

theorem deepPair_of {m n d : Nat} {e a} (he : t.Deep m e) (ha : t.Deep n a) (hd : m + n ≤ d + 1) :
    ∃ d' ≤ d, t.DeepPair d' (e, a) := by
  cases m with
  | zero => exact absurd he (not_deep_zero e)
  | succ m =>
    cases n with
    | zero => exact absurd ha (not_deep_zero a)
    | succ n => exact ⟨m + n + 1, by omega, m, n, he, ha, rfl⟩

/-- What a comparison asks for is less deep. -/
theorem Asks.less_deep (ht : t.Acyclic) {d : Nat} {p q} (hp : t.DeepPair (d + 1) p)
    (h : t.Asks p q) : ∃ d' ≤ d, t.DeepPair d' q := by
  obtain ⟨m, n, he, ha, hd⟩ := hp
  cases h with
  | expected h =>
    obtain ⟨k, hk, hvalue⟩ := deep_of_aliasValue? ht h he
    exact deepPair_of hvalue ha (by omega)
  | actual h =>
    obtain ⟨k, hk, hvalue⟩ := deep_of_aliasValue? ht h ha
    exact deepPair_of he hvalue (by omega)
  | decay => exact deepPair_of (deep_ptr.1 he) (deep_ref.1 ha) (by omega)
  | ptr => exact deepPair_of (deep_ptr.1 he) (deep_ptr.1 ha) (by omega)
  | ref => exact deepPair_of (deep_ref.1 he) (deep_ref.1 ha) (by omega)
  | array => exact deepPair_of (deep_array.1 he) (deep_array.1 ha) (by omega)
  | tuple hlength h =>
    obtain ⟨hmem, hmem'⟩ := List.of_mem_zip h
    exact deepPair_of (deep_of_tuple he hmem) (deep_of_tuple ha hmem') (by omega)

/-- Parts that are asked for decide whether types fit. -/
theorem fits_of_asks {R S : Ty → Ty → Prop} {e a} (h : Ty.Fits R e a)
    (hRS : ∀ q, t.Asks (e, a) q → R q.1 q.2 → S q.1 q.2) : Ty.Fits S e a := by
  cases h with
  | decay h => exact .decay (hRS _ .decay h)
  | ptr h => exact .ptr (hRS _ .ptr h)
  | ref h => exact .ref (hRS _ .ref h)
  | array h => exact .array (hRS _ .array h)
  | tuple h =>
    obtain ⟨hlength, h⟩ := List.forall₂_iff_zip.1 h
    refine .tuple (List.forall₂_iff_zip.2 ⟨hlength, fun hmem => ?_⟩)
    exact hRS _ (.tuple hlength hmem) (h hmem)

/-- A comparison depends on nothing but what it asks for. -/
theorem compatibleIn_covered {m n : Nat} {p}
    (h : ∀ q, t.Asks p q → t.compatibleIn m q.1 q.2 = t.compatibleIn n q.1 q.2) :
    t.compatibleIn (m + 1) p.1 p.2 = t.compatibleIn (n + 1) p.1 p.2 := by
  obtain ⟨e, a⟩ := p
  rw [Bool.eq_iff_iff, compatibleIn_succ, compatibleIn_succ]
  refine or_congr_right (or_congr_right (or_congr ?_ (or_congr ?_ ⟨?_, ?_⟩)))
  · exact exists_congr fun value => and_congr_right fun hvalue => by
      rw [h (value, a) (.expected hvalue)]
  · exact exists_congr fun value => and_congr_right fun hvalue => by
      rw [h (e, value) (.actual hvalue)]
  · exact fun hfits => fits_of_asks hfits fun q hq hR => (h q hq).symm.trans hR
  · exact fun hfits => fits_of_asks hfits fun q hq hR => (h q hq).trans hR

/-! ## Dereferencing -/

/-- A type stands for a reference or a pointer to another one. -/
inductive Peels (t : Symbols) : Ty → Ty → Prop
  | ref {ty target m} (h : t.underlying ty = .ref target m) : Peels t ty target
  | ptr {ty target} (h : t.underlying ty = .ptr target) : Peels t ty target

/-- What a reference or a pointer leads to is less deep, also where an alias stands for it. -/
theorem Peels.less_deep (ht : t.Acyclic) {target} (hty : t.Deep (n + 1) ty)
    (h : t.Peels ty target) : ∃ k ≤ n, t.Deep k target := by
  have hunder : ∃ k ≤ n, t.Deep (k + 1) (t.underlying ty) := by
    unfold underlying
    cases hvalue : t.aliasValue? ty with
    | none => exact ⟨n, Nat.le_refl n, hty⟩
    | some value =>
      obtain ⟨k, hk, hdeep⟩ := deep_of_aliasValue? ht hvalue hty
      cases k with
      | zero => exact absurd hdeep (not_deep_zero _)
      | succ k => exact ⟨k, by omega, hdeep⟩
  obtain ⟨k, hk, hdeep⟩ := hunder
  cases h with
  | ref h => exact ⟨k, hk, deep_ref.1 (h ▸ hdeep)⟩
  | ptr h => exact ⟨k, hk, deep_ptr.1 (h ▸ hdeep)⟩

theorem pointeeIn_covered {m n : Nat} {ty}
    (h : ∀ target, t.Peels ty target → t.pointeeIn m target = t.pointeeIn n target) :
    t.pointeeIn (m + 1) ty = t.pointeeIn (n + 1) ty := by
  unfold pointeeIn
  split
  · rename_i hunder
    exact h _ (.ref hunder)
  · rename_i hunder
    exact h _ (.ptr hunder)
  · rfl

/-- A field access crosses a reference or a pointer on its way from a place to another one. -/
inductive Crosses (t : Symbols) : Place → Place → Prop
  | ref {p : Place} {target m} (h : t.underlying p.type = .ref target m) :
    Crosses t p { p with type := target, writable := m, viaRef := true }
  | ptr {p : Place} {target} (h : t.underlying p.type = .ptr target) :
    Crosses t p { p with type := target, writable := true, viaRef := false }

theorem Crosses.peels {p q : Place} (h : t.Crosses p q) : t.Peels p.type q.type := by
  cases h with
  | ref h => exact .ref h
  | ptr h => exact .ptr h

theorem throughIn_covered {m n : Nat} {p}
    (h : ∀ q, t.Crosses p q → t.throughIn m q = t.throughIn n q) :
    t.throughIn (m + 1) p = t.throughIn (n + 1) p := by
  unfold throughIn
  split
  · rename_i hunder
    exact h _ (.ref hunder)
  · rename_i hunder
    exact h _ (.ptr hunder)
  · rfl

/-! ## The end -/

/-- If there is no endless chain of aliases, each with the name of the next in its target, then
comparing any two types, dereferencing any type and crossing from any place terminate, and what
bounds their steps is not felt. -/
theorem compatible_terminates (h : WellFounded fun other one => t.Leads one other) :
    Terminates t.Asks (fun n p => t.compatibleIn n p.1 p.2)
      (fun p => t.reach p.1 * t.reach p.2 + 1) (fun p => t.compatible p.1 p.2) ∧
    Terminates t.Peels t.pointeeIn t.reach t.pointee ∧
    Terminates t.Crosses t.throughIn (fun p => t.reach p.type) t.through := by
  have ht := acyclic_of_wellFounded h
  refine ⟨.of_depth t.DeepPair ?_ (Asks.less_deep ht) ?_ compatibleIn_covered fun _ => rfl,
    .of_depth t.Deep not_deep_zero (Peels.less_deep ht)
      (fun ty => ⟨_, Nat.le_refl _, deep_reach ht ty⟩) pointeeIn_covered fun _ => rfl,
    .of_depth (fun d p => t.Deep d p.type) (fun p => not_deep_zero p.type)
      (fun hp hcrosses => Peels.less_deep ht hp hcrosses.peels)
      (fun p => ⟨_, Nat.le_refl _, deep_reach ht p.type⟩) throughIn_covered fun _ => rfl⟩
  · rintro p ⟨m, n, -, -, hd⟩
    omega
  · intro p
    have hreach := Nat.add_sub_one_le_mul (reach_ne_zero t p.1) (reach_ne_zero t p.2)
    obtain ⟨d, hd, hdeep⟩ := deepPair_of (deep_reach ht p.1) (deep_reach ht p.2)
      (d := t.reach p.1 + t.reach p.2 - 1) (by omega)
    exact ⟨d, by omega, hdeep⟩

/-- Aliases of pointers and references to the alias of a module: with any number of steps from the
bound on, a reference is found to serve as the pointer, dereferencing finds the struct, and crossing
from a place finds the alias of it. -/
theorem compatible_terminates_nested :
    let define : String → Ty → Node := fun x type =>
      .leaf { kind := .aliasDef, loc := {}, name := .name x, type }
    let inner : Ty := .custom [.name "m", .name "A"]
    let struct : Ty := .custom [.name "m", .name "S"]
    let t := (Analysis.finished {} .written 1000
      [.inModule "m" [.record "S" [], define "A" (.custom [.name "S"])], define "P" (.ptr inner),
        define "Q" (.ref (.custom [.name "P"]) true)]).table
    let pointer : Ty := .custom [.name "P"]
    let reference : Ty := .custom [.name "Q"]
    (WellFounded fun other one => t.Leads one other) ∧
      (∀ n, t.reach pointer * t.reach (.ref struct false) + 1 ≤ n →
        t.compatibleIn n pointer (.ref struct false) = true) ∧
      (∀ n, t.reach reference ≤ n → t.pointeeIn n reference = struct) ∧
      ∀ n, t.reach reference ≤ n →
        t.throughIn n ⟨.name "x", reference, false, false⟩ = ⟨.name "x", inner, true, false⟩ := by
  intro define inner struct t pointer reference
  have h : WellFounded fun other one => t.Leads one other := by
    refine wellFounded_of_rank (fun x => if x = .name "Q" then 3 else if x = .name "P" then 2 else
      if x = .name "A" then 1 else 0) ?_
    decide +kernel
  obtain ⟨hcompatible, hpointee, hthrough⟩ := compatible_terminates h
  refine ⟨h, fun n hn => ?_, fun n hn => ?_, fun n hn => ?_⟩
  · exact (hcompatible.settled (a := (pointer, .ref struct false)) hn).trans (by decide +kernel)
  · exact (hpointee.settled hn).trans (by decide +kernel)
  · exact (hthrough.settled (a := ⟨.name "x", reference, false, false⟩) hn).trans
      (by decide +kernel)

end Symbols

end TreeSema
