import TreeSema.Analysis.Finding
import TreeSema.Symbol.Alias

/-!
# Coercion

A value may be used where its type is compatible with the type that is expected. Compatibility is
equality, widened by seeing through aliases on either side and by three coercions: a reference
becomes a pointer, an array fits whatever its size, and a value that never arises fits everywhere.

Types are compared down to their leaves with aliases replaced on the way. What comes up in place of
an alias is its target, qualified by modules of the table, so that there are only so many types
that can come up at all: `Symbols.reach` bounds their number. As long as no type comes up inside
itself, this bounds how deep a comparison goes.
-/
namespace TreeSema.Symbols

/-- How many types there can be inside a type and inside what the aliases in it stand for: those of
the type itself, and those of each alias target, in as many spellings as there are modules. -/
def reach (t : Symbols) (ty : Ty) : Nat :=
  ty.size + t.tables.length * t.aliasTargets.foldr (fun target n => target.size + n) 0

/-- Compatibility, looking at most `fuel` steps deep. -/
def compatibleIn (t : Symbols) : Nat → Ty → Ty → Bool
  | 0, _, _ => false
  | fuel + 1, expected, actual =>
    expected.equal actual || actual.isNever
      || (match t.aliasValue? expected with
          | some value => compatibleIn t fuel value actual
          | none => false)
      || (match t.aliasValue? actual with
          | some value => compatibleIn t fuel expected value
          | none => false)
      || (match expected, actual with
          | .ptr e, .ref a _ => compatibleIn t fuel e a
          | .ptr e, .ptr a => compatibleIn t fuel e a
          | .ref e m, .ref a n => n == m && compatibleIn t fuel e a
          | .array _ e, .array _ a => compatibleIn t fuel e a
          | .tuple es, .tuple as =>
            es.length == as.length && (es.zip as).all fun p => compatibleIn t fuel p.1 p.2
          | _, _ => false)

/-- May a value of type `actual` be used where `expected` is required? On the way down to the leaves
no two types are compared twice. -/
def compatible (t : Symbols) (expected actual : Ty) : Bool :=
  t.compatibleIn (t.reach expected * t.reach actual + 1) expected actual

/-- A type as messages show it. -/
def shown (t : Symbols) (ty : Ty) : Shown := ⟨ty, t.aliasValue? ty⟩

def pointeeIn (t : Symbols) : Nat → Ty → Ty
  | 0, ty => t.underlying ty
  | fuel + 1, ty =>
    match t.underlying ty with
    | .ref target _ => pointeeIn t fuel target
    | .ptr target => pointeeIn t fuel target
    | other => other

/-- A type without the aliases, references and pointers around it. -/
def pointee (t : Symbols) (ty : Ty) : Ty := t.pointeeIn (t.reach ty) ty

/-- A type written inside the definition that a path leads to, as it is written from here. -/
def qualifyAt (t : Symbols) (path : List Ident) (ty : Ty) : Ty := ty.qualify (t.modulesOf path)

/-- The type of an integer literal: the expected one if that is numeric. -/
def integerType (t : Symbols) (expected : Ty) : Ty :=
  if (t.underlying expected).isNumeric then expected else .basic .i32

/-- The type of a floating-point literal: the expected one if that is a floating-point type. -/
def floatType (t : Symbols) (expected : Ty) : Ty :=
  if (t.underlying expected).isFloat then expected else .basic .f64

end TreeSema.Symbols
