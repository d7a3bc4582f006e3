import TreeSema.Proofs.Crossing

/-!
# Comparing types and moving them out of modules

Types are the same just if they are the same tree. To move a type out of a module is to write the
module in front of its names, so moving it out of several modules one after the other is moving it
out of all of them at once, and types are moved apart no more than they are moved together.

* `Ty.qualify_qualify`: one module after the other.
* `Ty.equal_qualify`: a comparison comes out the same inside a module and outside of it.
* `Ty.equal_qualify_laws`: the laws together.
-/
namespace TreeSema.Ty

mutual

/-- A type that is moved out of a module and then out of the next is moved out of both. -/
theorem qualify_qualify (p q : List Ident) : ∀ t : Ty, (t.qualify q).qualify p = t.qualify (p ++ q)
  | ref t m => congrArg (ref · m) (qualify_qualify p q t)
  | ptr t => congrArg ptr (qualify_qualify p q t)
  | tuple ts => congrArg tuple (qualifyAll_qualifyAll p q ts)
  | array n t => congrArg (array n) (qualify_qualify p q t)
  | template name ts => congrArg (template name) (qualifyAll_qualifyAll p q ts)
  | custom path => congrArg custom (List.append_assoc p q path).symm
  | unknown | basic _ | unit => rfl

theorem qualifyAll_qualifyAll (p q : List Ident) : ∀ ts : List Ty,
    qualifyAll p (qualifyAll q ts) = qualifyAll (p ++ q) ts
  | [] => rfl
  | t :: ts => congrArg₂ List.cons (qualify_qualify p q t) (qualifyAll_qualifyAll p q ts)

end

mutual

/-- Types compare in the same way from outside a module as inside it. -/
theorem equal_qualify (p : List Ident) : ∀ t u : Ty, equal (t.qualify p) (u.qualify p) = equal t u
  | ref t _, u => by cases u <;> simp [qualify, equal, equal_qualify p t]
  | ptr t, u => by cases u <;> simp [qualify, equal, equal_qualify p t]
  | tuple ts, u => by cases u <;> simp [qualify, equal, equalAll_qualifyAll p ts]
  | array _ t, u => by cases u <;> simp [qualify, equal, equal_qualify p t]
  | template _ ts, u => by cases u <;> simp [qualify, equal, equalAll_qualifyAll p ts]
  | custom _, u => by cases u <;> simp [qualify, equal]
  | unknown, u | basic _, u | unit, u => by cases u <;> simp [qualify, equal]

theorem equalAll_qualifyAll (p : List Ident) : ∀ ts us : List Ty,
    equalAll (qualifyAll p ts) (qualifyAll p us) = equalAll ts us
  | [], us => by cases us <;> simp [qualifyAll, equalAll]
  | t :: ts, us => by
    cases us <;> simp [qualifyAll, equalAll, equal_qualify p t, equalAll_qualifyAll p ts]

end

/-- The comparison decides whether types are the same tree. Modules act on types: the empty path
leaves a type alone, a path acts as its parts do one after the other, and no path makes types equal
or unequal that were not. -/
theorem equal_qualify_laws (a b : Ty) (p q : List Ident) :
    (a.equal b = true ↔ a = b) ∧ a.qualify (p ++ q) = (a.qualify q).qualify p ∧
      a.qualify [] = a ∧ ((a.qualify p).equal (b.qualify p) = true ↔ a.equal b = true) :=
  ⟨equal_iff a b, (qualify_qualify p q a).symm, qualify_of_names (.inl rfl), by rw [equal_qualify]⟩

end TreeSema.Ty
