import TreeSema.Symbol.Alias

/-!
# Named tables

A workspace holds tables by name. Modules in them refer to tables of the workspace by name, so
that a table can still change after it has been made the body of a module, can be the body of
several modules, and can even be the body of a module in one of its own scopes.
-/
namespace TreeSema

structure Workspace where
  tables : List (String × Table String)

namespace Workspace

def empty : Workspace := ⟨[]⟩

/-- The table with a name; one that was never changed is empty. -/
def get (w : Workspace) (name : String) : Table String := (w.tables.lookup name).getD .empty

/-- Changes the table with a name. -/
def update (w : Workspace) (name : String) (f : Table String → Table String) : Workspace :=
  ⟨(name, f (w.get name)) :: w.tables.filter (·.1 != name)⟩

/-! ## Paths -/

/-- The entry that a path leads to from a table. -/
def resolve (w : Workspace) (name : String) (path : List Ident) : Option (Entry String) :=
  (w.get name).resolveBy w.get path

/-- The modules that resolution walks through on its way to the last segment of a path. -/
def modulesOf (w : Workspace) (name : String) (path : List Ident) : List Ident :=
  (w.get name).modulesBy w.get path

/-- The leading segments of a path that name modules. -/
def leadingModules (w : Workspace) (name : String) (path : List Ident) : List Ident :=
  (w.get name).leadingBy w.get path

/-- The name of the table that modules lead to. -/
def tableAt (w : Workspace) (name : String) : List Ident → String
  | [] => name
  | m :: rest =>
    match (w.get name).lookup m with
    | some ⟨_, _, .moduleDef (some inner), _⟩ => tableAt w inner rest
    | _ => name

/-! ## Aliases -/

/-- One step: the alias that a type names, by its table and its name there, and its target as it
is written from this table. Paths through different modules can lead to one table. -/
def aliasStep? (w : Workspace) (name : String) (ty : Ty) :
    Option ((String × Option Ident) × Ty) :=
  ((w.get name).aliasStepBy w.get ty).map fun s =>
    ((w.tableAt name s.1.dropLast, s.1.getLast?), s.2)

/-- What a type that names an alias stands for in the end. -/
def aliasValue? (w : Workspace) (name : String) (ty : Ty) : Option Ty :=
  match w.aliasStep? name ty with
  | none => none
  | some _ =>
    let bound := (w.tables.flatMap (·.2.ownTargets)).length + 1
    Alias.follow (w.aliasStep? name) bound [] ty

/-- Does following aliases from a type come back to one already seen? -/
def aliasLoops (w : Workspace) (name : String) (ty : Ty) : Bool :=
  (w.aliasStep? name ty).isSome && (w.aliasValue? name ty).isNone

/-! ## Root scopes -/

/-- The root scope of a table with the root scopes of its modules inside, down to a depth. -/
def outlineTo (w : Workspace) : Nat → String → Symbols
  | 0, _ => .empty
  | depth + 1, name => ⟨(w.get name).root.map fun inner => .table (outlineTo w depth inner), []⟩

/-- The root scope of a table with the root scopes of its modules inside. Root scopes that do not
contain themselves nest no deeper than there are tables. -/
def outline (w : Workspace) (name : String) : Symbols := w.outlineTo (w.tables.length + 1) name

/-- An entry, with the root scopes of modules inside. -/
def outlineEntry (w : Workspace) (e : Entry String) : SymbolEntry :=
  e.map fun inner => .table (w.outline inner)

end Workspace

end TreeSema
