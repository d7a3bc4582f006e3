import TreeSema.Ty

/-!
# Ordered maps

Finite maps from identifiers that remember the order in which their keys were first set. The entries
stand in a list, and an index holds the place of each key in it. Setting a key that is present keeps
its place and replaces its value.
-/
namespace TreeSema

/-- An index leads from each key to the one place where it stands, and from no other name. -/
def Indexes (index : List (Ident × Nat)) (keys : List Ident) : Prop :=
  ∀ name i, index.lookup name = some i ↔ keys[i]? = some name

theorem Indexes.append {index keys name} (h : Indexes index keys) (hnew : index.lookup name = none) :
    Indexes ((name, keys.length) :: index) (keys ++ [name]) := by
  intro other i
  have hold := h other i
  rw [List.lookup_cons, List.getElem?_append, List.getElem?_singleton]
  by_cases hother : other = name
  · -- the name stands nowhere before the end: the old index would lead there
    subst hother
    have hno : keys[i]? ≠ some other := fun hi => by simp [hold.2 hi] at hnew
    grind
  · grind

structure OrderedMap (α : Type) where
  /-- The keys with their values, in the order in which they are listed and gone through. -/
  entries : List (Ident × α)
  /-- The places of the keys, counted from 0. -/
  index : List (Ident × Nat)
  indexed : Indexes index (entries.map (·.1))
  deriving DecidableEq, Repr

namespace OrderedMap

variable {α : Type}

def empty : OrderedMap α := ⟨[], [], by simp [Indexes]⟩

instance : Inhabited (OrderedMap α) := ⟨empty⟩

theorem map_modify (entries : List (Ident × α)) (i : Nat) (value : α) :
    (entries.modify i fun e => (e.1, value)).map (·.1) = entries.map (·.1) := by
  refine List.ext_getElem? fun j => ?_
  rw [List.getElem?_map, List.getElem?_modify, List.getElem?_map]
  split <;> simp [Function.comp_def]

/-- Replaces the value of a key where it stands, or adds the key at the end. -/
def set (m : OrderedMap α) (name : Ident) (value : α) : OrderedMap α :=
  match h : m.index.lookup name with
  | some i =>
    ⟨m.entries.modify i fun e => (e.1, value), m.index, map_modify m.entries i value ▸ m.indexed⟩
  | none =>
    ⟨m.entries ++ [(name, value)], (name, m.entries.length) :: m.index,
      by rw [List.map_append, ← List.length_map (·.1)]; exact m.indexed.append h⟩

/-- Sets keys one after the other. -/
def setAll (m : OrderedMap α) (calls : List (Ident × α)) : OrderedMap α :=
  calls.foldl (fun m e => m.set e.1 e.2) m

def ofList (calls : List (Ident × α)) : OrderedMap α := empty.setAll calls

def get? (m : OrderedMap α) (name : Ident) : Option α :=
  (m.index.lookup name).bind fun i => m.entries[i]?.map (·.2)

def contains (m : OrderedMap α) (name : Ident) : Bool := (m.get? name).isSome

def keys (m : OrderedMap α) : List Ident := m.entries.map (·.1)

def size (m : OrderedMap α) : Nat := m.entries.length

end OrderedMap

/-- The fields of a struct or union, in declaration order. -/
abbrev Fields := OrderedMap Ty

end TreeSema
