import TreeSema.Symbol.Resolve

/-!
# Aliases

An alias stands for its target, which is written relative to the modules that lead to the alias.
Following aliases from a type ends at a type that is none, or comes back to an alias already seen.

Following takes at most one step more than there are aliases in the table and its modules, so that
number bounds it.
-/
namespace TreeSema

/-! ## Chains of steps -/

namespace Alias

variable {κ : Type} [BEq κ]

/-- Takes steps from a type to one that has none. A step has a key; where a key comes again, there
is no end. -/
def follow (step : Ty → Option (κ × Ty)) : Nat → List κ → Ty → Option Ty
  | 0, _, _ => none
  | fuel + 1, visited, ty =>
    match step ty with
    | none => some ty
    | some (key, next) =>
      if visited.contains key then none else follow step fuel (key :: visited) next

end Alias

/-! ## Aliases of a table -/

namespace Table

variable {M : Type}

/-- One step: the alias that a type names, by its canonical path, and its target as it is written
from this table. -/
def aliasStepBy (bodyOf : M → Table M) (t : Table M) : Ty → Option (List Ident × Ty)
  | .custom path =>
    match t.resolveBy bodyOf path with
    | some ⟨_, _, .aliasDef target, _⟩ =>
      some (t.canonicalBy bodyOf path, target.qualify (t.leadingBy bodyOf path.dropLast))
    | _ => none
  | _ => none

/-- The targets of the aliases in a table, those in its modules left out. -/
def ownTargets (t : Table M) : List Ty :=
  (t.root :: t.stack).flatMap fun s => (s.transient ++ s.persistent).filterMap fun e =>
    match e.kind with
    | .aliasDef target => some target
    | _ => none

end Table

namespace ModuleBody

mutual

/-- A table and the tables of its modules, at whatever depth. -/
def tables : ModuleBody → List Symbols
  | .table ⟨⟨transient, persistent, order, context⟩, stack⟩ =>
    ⟨⟨transient, persistent, order, context⟩, stack⟩ ::
      (tablesOfEntries transient ++ tablesOfEntries persistent ++ tablesOfScopes stack)

def tablesOfEntries : List (Entry ModuleBody) → List Symbols
  | [] => []
  | ⟨_, _, .moduleDef (some body), _⟩ :: es => tables body ++ tablesOfEntries es
  | _ :: es => tablesOfEntries es

def tablesOfScopes : List (Scope ModuleBody) → List Symbols
  | [] => []
  | ⟨transient, persistent, _, _⟩ :: ss =>
    tablesOfEntries transient ++ tablesOfEntries persistent ++ tablesOfScopes ss

end

end ModuleBody

namespace Symbols

/-- A table and the tables of its modules, at whatever depth. -/
def tables (t : Symbols) : List Symbols := (ModuleBody.table t).tables

/-- The targets of all aliases in a table and in its modules. -/
def aliasTargets (t : Symbols) : List Ty := t.tables.flatMap Table.ownTargets

/-- One step: the alias that a type names, by its canonical path, and its target as it is written
from this table. -/
def aliasStep? (t : Symbols) (ty : Ty) : Option (List Ident × Ty) := t.aliasStepBy ModuleBody.get ty

/-- What a type that names an alias stands for in the end. -/
def aliasValue? (t : Symbols) (ty : Ty) : Option Ty :=
  match t.aliasStep? ty with
  | none => none
  | some _ => Alias.follow t.aliasStep? (t.aliasTargets.length + 1) [] ty

/-- Does following aliases from a type come back to one already seen? -/
def aliasLoops (t : Symbols) (ty : Ty) : Bool :=
  (t.aliasStep? ty).isSome && (t.aliasValue? ty).isNone

/-- A type with aliases followed at its top. -/
def underlying (t : Symbols) (ty : Ty) : Ty := (t.aliasValue? ty).getD ty

end Symbols

end TreeSema
