import TreeSema.Symbol.Entry

/-!
# Scopes and tables

A table is a stack of scopes over a root scope. A scope keeps its static entries apart from the
others, so that closing it has only those to hand on: they are put into the scope around it, and
all other entries are dropped. The order in which the names of a scope were first put is kept.

Each scope knows where it stands: in a function or not, in a loop or not, and whether unsafe
operations are allowed in it. A scope can be opened with the safety of the one around it.
-/
namespace TreeSema

/-- Are unsafe operations allowed? -/
inductive Safety where
  | inherited
  | safe
  | unsafely
  | unknown
  deriving DecidableEq, Repr

def Safety.name : Safety → String
  | inherited => "inherited"
  | safe => "safe"
  | unsafely => "unsafe"
  | unknown => "unknown"

/-- Where a scope stands. -/
structure Context where
  safety : Safety := .inherited
  inFunction : Bool := false
  inLoop : Bool := false
  deriving DecidableEq, Repr

/-- Entries by name, and the names in the order they were first put. -/
structure Scope (M : Type) where
  transient : List (Entry M)
  persistent : List (Entry M)
  order : List Ident
  context : Context

namespace Scope

variable {M N : Type}

def empty (context : Context) : Scope M := ⟨[], [], [], context⟩

/-- The entry with a name among some. -/
def find? (name : Ident) (es : List (Entry M)) : Option (Entry M) := es.find? (·.name == name)

/-- Some entries without those that have a name. -/
def without (name : Ident) (es : List (Entry M)) : List (Entry M) := es.filter (·.name != name)

def get? (s : Scope M) (name : Ident) : Option (Entry M) :=
  find? name s.persistent <|> find? name s.transient

/-- Adds an entry in place of any other with its name. -/
def put (s : Scope M) (e : Entry M) : Scope M :=
  let transient := without e.name s.transient
  let persistent := without e.name s.persistent
  { s with
    transient := if e.static then transient else transient ++ [e]
    persistent := if e.static then persistent ++ [e] else persistent
    order := if (s.get? e.name).isSome then s.order else s.order ++ [e.name] }

/-- The entries in the order of their names. -/
def entries (s : Scope M) : List (Entry M) := s.order.filterMap s.get?

/-- The static entries in the order of their names. -/
def statics (s : Scope M) : List (Entry M) := s.order.filterMap (find? · s.persistent)

/-- Changes the entry with a name where it stands. -/
def modify (s : Scope M) (name : Ident) (f : Entry M → Entry M) : Scope M :=
  let change (es : List (Entry M)) := es.map fun e => if e.name = name then f e else e
  { s with transient := change s.transient, persistent := change s.persistent }

def map (f : M → N) (s : Scope M) : Scope N :=
  ⟨s.transient.map (.map f), s.persistent.map (.map f), s.order, s.context⟩

end Scope

/-- A root scope and the scopes opened in it, innermost first. -/
structure Table (M : Type) where
  root : Scope M
  stack : List (Scope M)

namespace Table

variable {M : Type}

/-- A table with nothing but its root scope, which is safe. -/
def empty : Table M := ⟨.empty { safety := .safe }, []⟩

/-- The innermost scope. -/
def current (t : Table M) : Scope M := t.stack.headD t.root

/-- Changes the innermost scope. -/
def modifyCurrent (t : Table M) (f : Scope M → Scope M) : Table M :=
  match t.stack with
  | [] => { t with root := f t.root }
  | s :: rest => { t with stack := f s :: rest }

/-- Puts an entry into the innermost scope, in place of any other with its name there. -/
def insert (t : Table M) (e : Entry M) : Table M := t.modifyCurrent (·.put e)

/-- Opens a scope. -/
def enter (t : Table M) (context : Context) : Table M :=
  let safety := if context.safety = .inherited then t.current.context.safety else context.safety
  { t with stack := .empty { context with safety } :: t.stack }

/-- Closes the innermost scope and puts its static entries into the scope around it. The root scope
stays open. -/
def exit (t : Table M) : Table M :=
  match t.stack with
  | [] => t
  | s :: rest => s.statics.foldl insert { t with stack := rest }

/-- Sets the safety of the innermost scope; inherited safety is that of the scope around it, and
the root scope has none around it and is safe. -/
def withSafety (t : Table M) (safety : Safety) : Table M :=
  let around : Safety :=
    match t.stack with
    | [] => .safe
    | _ :: rest => (rest.headD t.root).context.safety
  let safety := if safety = .inherited then around else safety
  t.modifyCurrent fun s => { s with context := { s.context with safety } }

/-- The entry that a name stands for: that of the innermost scope that has one. -/
def lookup (t : Table M) (name : Ident) : Option (Entry M) :=
  t.stack.findSome? (·.get? name) <|> t.root.get? name

/-- The entry that the innermost scope has for a name. -/
def lookupHere (t : Table M) (name : Ident) : Option (Entry M) := t.current.get? name

def context (t : Table M) : Context := t.current.context

/-- The number of scopes opened in the root scope. -/
def depth (t : Table M) : Nat := t.stack.length

/-- The entries of the root scope in the order of their names. -/
def entries (t : Table M) : List (Entry M) := t.root.entries

/-- Changes the entry with a name in the innermost of some scopes that has one; says whether there
was one. -/
def modifyIn (name : Ident) (f : Entry M → Entry M) : List (Scope M) → Option (List (Scope M))
  | [] => none
  | s :: rest =>
    if (s.get? name).isSome then some (s.modify name f :: rest)
    else (modifyIn name f rest).map (s :: ·)

/-- Changes the entry that a name stands for where it stands. -/
def modify (t : Table M) (name : Ident) (f : Entry M → Entry M) : Table M :=
  match modifyIn name f t.stack with
  | some stack => { t with stack }
  | none => { t with root := t.root.modify name f }

end Table

end TreeSema
