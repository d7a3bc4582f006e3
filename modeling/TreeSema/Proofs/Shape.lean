import TreeSema.Tree.Reader
import Mathlib.Data.List.Basic

/-!
# The shape of trees that were read

Nodes of all kinds are built alike, but a node that was read holds just what its kind calls for: a
fixed number of operands, components only where they are named arguments, parts of a literal or
declared fields, and a body only if it is a function.

* `every_mk`: a property of every node holds of the root and of every node below it.
* `WellFormed`: every node has the shape of its kind.
-/
namespace TreeSema

/-- Can a node of this kind have components or a body? -/
def Kind.hasParts : Kind → Bool
  | .structDef | .unionDef | .lit | .literal | .call | .typedCall | .funcDef => true
  | _ => false

/-- The number of operands of a node of this kind, if it always has as many and nothing else. -/
def Kind.fixed? : Kind → Option Nat
  | .binary | .assign | .dot | .path | .index | .whileLoop => some 2
  | .unary | .ref | .cast | .deref | .loop => some 1
  | .enumDef | .variantDef | .aliasDef | .int | .float | .str | .bool | .ident | .breakLoop
  | .continueLoop => some 0
  | _ => none

theorem Kind.hasParts_of_fixed? {kind : Kind} {count : Nat} (h : kind.fixed? = some count) :
    kind.hasParts = false := by
  cases kind <;> first | rfl | cases h

namespace Head

/-- How many operands a node can have. -/
def Takes (h : Head) (n : Nat) : Prop :=
  match h.kind with
  | .binary | .assign | .dot | .path => n = 2
  | .unary | .ref | .cast => n = 1
  | .varDef | .staticDef | .constDef => n ≤ 1
  | .structDef | .unionDef | .enumDef | .variantDef | .funcDef | .aliasDef | .int | .float | .str
  | .bool | .ident | .lit | .literal => n = 0
  | .call | .typedCall => h.named = true → n = 0
  | kind => TreeReader.takes kind n = true

/-- A component that a node can have. -/
def Admits (h : Head) (f : Component Node) : Prop :=
  match h.kind with
  | .structDef | .unionDef => f.value = .absent
  | .lit | .literal => True
  | .call | .typedCall => h.named = true
  | _ => False

end Head

namespace Node

variable {m : Node} {h : Head} {cs : List Node} {fs : List (Component Node)} {p : Node → Prop}

/-- All nodes of a tree. -/
def nodes (n : Node) : List Node := n.walk fun _ => true

theorem mem_walkAll : ∀ cs : List Node, m ∈ walkAll (fun _ => true) cs ↔ ∃ c ∈ cs, m ∈ c.nodes
  | [] => by simp [walkAll]
  | c :: cs => by simp [walkAll, mem_walkAll cs, nodes]

theorem mem_walkFields : ∀ fs : List (Component Node),
    m ∈ walkFields (fun _ => true) fs ↔ ∃ f ∈ fs, m ∈ f.value.nodes
  | [] => by simp [walkFields]
  | f :: fs => by simp [walkFields, mem_walkFields fs, nodes]

theorem mem_nodes_mk {b : Node} : m ∈ (mk h cs fs b).nodes ↔
      m = mk h cs fs b ∨ (∃ c ∈ cs, m ∈ c.nodes) ∨ (∃ f ∈ fs, m ∈ f.value.nodes) ∨ m ∈ b.nodes := by
  simp [nodes, walk, mem_walkAll, mem_walkFields]

/-- Every node of a tree has a property. -/
def Every (p : Node → Prop) (n : Node) : Prop := ∀ m ∈ n.nodes, p m

instance {p : Node → Prop} [DecidablePred p] (n : Node) : Decidable (n.Every p) :=
  inferInstanceAs (Decidable (∀ m ∈ n.nodes, p m))

theorem every_absent : Every p .absent := by simp [Every, nodes, walk]

theorem every_mk {b : Node} : (mk h cs fs b).Every p ↔ p (mk h cs fs b) ∧ (∀ c ∈ cs, c.Every p) ∧
      (∀ f ∈ fs, f.value.Every p) ∧ b.Every p := by
  constructor
  · intro hw
    refine ⟨hw _ (mem_nodes_mk.2 (.inl rfl)), fun c hc m hm => hw m ?_, fun f hf m hm => hw m ?_,
      fun m hm => hw m ?_⟩
    · exact mem_nodes_mk.2 (.inr (.inl ⟨c, hc, hm⟩))
    · exact mem_nodes_mk.2 (.inr (.inr (.inl ⟨f, hf, hm⟩)))
    · exact mem_nodes_mk.2 (.inr (.inr (.inr hm)))
  · rintro ⟨hs, hcs, hfs, hb⟩ m hm
    rcases mem_nodes_mk.1 hm with rfl | ⟨c, hc, hm⟩ | ⟨f, hf, hm⟩ | hm
    · exact hs
    · exact hcs c hc m hm
    · exact hfs f hf m hm
    · exact hb m hm

theorem Every.self {n : Node} (hn : n.Every p) (habsent : p .absent) : p n := by
  cases n with
  | absent => exact habsent
  | mk h cs fs b => exact (every_mk.1 hn).1

/-- A node holds what its kind calls for. -/
inductive Shaped : Node → Prop
  | absent : Shaped .absent
  | mk {h : Head} {cs : List Node} {fs} {b : Node}
      (operands : h.Takes cs.length) (fields : ∀ f ∈ fs, h.Admits f)
      (body : b = .absent ∨ h.kind = .funcDef ∧ b.kind? = some .block) : Shaped (.mk h cs fs b)

section Shaped

variable {b : Node}

theorem Shaped.takes (hs : (Node.mk h cs fs b).Shaped) : h.Takes cs.length := by
  cases hs with
  | mk operands _ _ => exact operands

theorem Shaped.body_absent (hs : (Node.mk h cs fs b).Shaped) (hk : h.kind ≠ .funcDef) :
    b = .absent := by
  cases hs with
  | mk _ _ body => exact body.resolve_right fun hf => hk hf.1

/-- A node of most kinds has operands only. -/
theorem Shaped.operands_only (hs : (Node.mk h cs fs b).Shaped) (hk : h.kind.hasParts = false) :
    fs = [] ∧ b = .absent := by
  refine ⟨List.eq_nil_iff_forall_not_mem.2 fun f hf => ?_, hs.body_absent fun he => ?_⟩
  · cases hs with
    | mk _ fields _ =>
      have hf := fields f hf
      unfold Head.Admits at hf
      split at hf <;> simp_all [Kind.hasParts]
  · rw [he] at hk
    cases hk

theorem Shaped.fixed (count : Nat) (hs : (Node.mk h cs fs b).Shaped)
    (hk : h.kind.fixed? = some count) : cs.length = count ∧ fs = [] ∧ b = .absent := by
  have htakes := hs.takes
  refine ⟨?_, hs.operands_only (Kind.hasParts_of_fixed? hk)⟩
  unfold Head.Takes at htakes
  cases hkind : h.kind <;> rw [hkind] at hk htakes <;> cases hk
  all_goals simpa [TreeReader.takes] using htakes

/-- A function has a body and nothing else. -/
theorem Shaped.function (hs : (Node.mk h cs fs b).Shaped) (hk : h.kind = .funcDef) :
    cs = [] ∧ fs = [] ∧ (b = .absent ∨ b.kind? = some .block) := by
  cases hs with
  | mk operands fields body =>
    simp only [Head.Takes, hk, List.length_eq_zero_iff] at operands
    simp only [Head.Admits, hk] at fields
    exact ⟨operands, List.eq_nil_iff_forall_not_mem.2 fields, body.imp_right And.right⟩

/-- A struct or a union has fields and nothing else. -/
theorem Shaped.record (hs : (Node.mk h cs fs b).Shaped)
    (hk : h.kind = .structDef ∨ h.kind = .unionDef) :
    cs = [] ∧ (∀ f ∈ fs, f.value = .absent) ∧ b = .absent := by
  have hb := hs.body_absent (by rcases hk with hk | hk <;> simp [hk])
  cases hs with
  | mk operands fields _ =>
    rcases hk with hk | hk
    all_goals
      simp only [Head.Takes, hk, List.length_eq_zero_iff] at operands
      simp only [Head.Admits, hk] at fields
      exact ⟨operands, fields, hb⟩

end Shaped

/-- Every node of the tree has the shape of its kind. -/
abbrev WellFormed (n : Node) : Prop := n.Every Shaped

theorem wellFormed_leaf (hops : h.Takes 0) : (leaf h).WellFormed :=
  every_mk.2 ⟨.mk hops nofun (.inl rfl), nofun, nofun, every_absent⟩

theorem wellFormed_ofChildren (hops : h.Takes cs.length)
    (hcs : ∀ c ∈ cs, c.WellFormed) : (ofChildren h cs).WellFormed :=
  every_mk.2 ⟨.mk hops nofun (.inl rfl), hcs, nofun, every_absent⟩

theorem wellFormed_ofFields (hops : h.Takes 0)
    (hnames : ∀ f ∈ fs, h.Admits f) (hfs : ∀ f ∈ fs, f.value.WellFormed) :
    (ofFields h fs).WellFormed :=
  every_mk.2 ⟨.mk hops hnames (.inl rfl), nofun, hfs, every_absent⟩

end Node

namespace TreeReader

variable {α β : Type} {unit : String}

theorem bind_eq_ok {x} {f : α → Read β} {b : β} :
    (x >>= f) = .ok b ↔ ∃ a, x = .ok a ∧ f a = .ok b := by
  cases x <;> simp [bind, Except.bind]

theorem fail_eq_ok {p fault} {a : α} : (fail unit p fault : Read α) = .ok a ↔ False := by
  simp [fail]

section Atoms

variable {p : Text.Pos} {notes : List (String × Datum)} {text : String}

theorem readNode_integer : readNode unit (.atom p notes .integer text) =
    (return .leaf { kind := .int, loc := .ofPos unit p, integer := ← readInteger unit p text }) := by
  unfold readNode
  rfl

theorem readNode_string : readNode unit (.atom p notes .string text) =
    .ok (.leaf { kind := .str, loc := .ofPos unit p, text }) := by
  unfold readNode
  rfl

theorem readNode_symbol : readNode unit (.atom p notes .symbol text) = readSymbol unit p text := by
  unfold readNode
  rfl

end Atoms

end TreeReader

/-! ## Small trees -/

namespace Node

def ident (x : String) : Node := .leaf { kind := .ident, loc := {}, name := .name x }

/-- A node with two operands. -/
def pair (kind : Kind) (left right : Node) : Node := .ofChildren { kind, loc := {} } [left, right]

def record (x : String) (fields : List (String × Ty)) : Node :=
  .ofFields { kind := .structDef, loc := {}, name := .name x }
    (fields.map fun f => ⟨.name f.1, f.2, .absent, {}⟩)

/-- A variable with a declared type and perhaps an initializer. -/
def var (x : String) (mutable : Bool) (type : Ty) (init : List Node) : Node :=
  .ofChildren { kind := .varDef, loc := {}, name := .name x, mutable, type } init

def inModule (x : String) (body : List Node) : Node :=
  .ofChildren { kind := .moduleDef, loc := {}, name := .name x } body

end Node

end TreeSema
