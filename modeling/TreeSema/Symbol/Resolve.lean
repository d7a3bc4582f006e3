import TreeSema.Symbol.Table

/-!
# Qualified names

A module has a table for its body, and so tables nest. A path is resolved from left to right: a
module hands the rest of the path to its own table, an enum or a variant takes exactly one more
segment, and any other entry is passed over, the rest being looked up in the same table.

Two further walks go along a path: `modulesBy` collects the modules that resolution goes through,
`leadingBy` stops at the first segment that is no module.

How an entry refers to the body of a module is left open: the walks are told by `bodyOf`. In a
`Symbols` table the bodies are tables themselves.
-/
namespace TreeSema

namespace Table

variable {M : Type} (bodyOf : M → Table M)

/-- The entry that a path leads to. -/
def resolveBy (t : Table M) : List Ident → Option (Entry M)
  | [] => none
  | name :: rest =>
    match t.lookup name with
    | none => none
    | some e =>
      if rest.isEmpty then some e
      else
        match e.kind with
        | .moduleDef none => none
        | .moduleDef (some body) => resolveBy (bodyOf body) rest
        | .enumDef d =>
          match rest with
          | [value] => d.entry? value
          | _ => none
        | .variantDef d =>
          match rest with
          | [arm] => d.entry? arm
          | _ => none
        | _ => resolveBy t rest

/-- The modules that resolution walks through on its way to the last segment of a path. -/
def modulesBy (t : Table M) : List Ident → List Ident
  | [] => []
  | name :: rest =>
    if rest.isEmpty then []
    else
      match t.lookup name with
      | none => []
      | some e =>
        match e.kind with
        | .moduleDef none => []
        | .moduleDef (some body) => name :: modulesBy (bodyOf body) rest
        | .enumDef _ => []
        | .variantDef _ => []
        | _ => modulesBy t rest

/-- The leading segments of a path that name modules. -/
def leadingBy (t : Table M) : List Ident → List Ident
  | [] => []
  | name :: rest =>
    match t.lookup name with
    | some ⟨_, _, .moduleDef (some body), _⟩ => name :: leadingBy (bodyOf body) rest
    | _ => []

/-- A path without the segments that resolution passes over: the modules it goes through and its
last segment. -/
def canonicalBy (t : Table M) (path : List Ident) : List Ident :=
  t.modulesBy bodyOf path ++ path.getLast?.toList

end Table

/-- The body of a module. -/
inductive ModuleBody where
  | table (t : Table ModuleBody)

def ModuleBody.get : ModuleBody → Table ModuleBody
  | table t => t

/-- A symbol table, with the tables of its modules inside. -/
abbrev Symbols := Table ModuleBody

abbrev SymbolEntry := Entry ModuleBody

namespace Symbols

/-- The entry that a path leads to. -/
def resolve (t : Symbols) (path : List Ident) : Option SymbolEntry :=
  t.resolveBy ModuleBody.get path

/-- The modules that resolution walks through on its way to the last segment of a path. -/
def modulesOf (t : Symbols) (path : List Ident) : List Ident := t.modulesBy ModuleBody.get path

/-- The leading segments of a path that name modules. -/
def leadingModules (t : Symbols) (path : List Ident) : List Ident := t.leadingBy ModuleBody.get path

/-- A path without the segments that resolution passes over. -/
def canonical (t : Symbols) (path : List Ident) : List Ident := t.canonicalBy ModuleBody.get path

end Symbols

end TreeSema
