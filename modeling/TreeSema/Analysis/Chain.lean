import TreeSema.Tree.Basic

/-!
# Access chains

An access chain such as `geo::Shape::Pair(1, 2)` is written as nested nodes and read as a path of
names, which may end in a call, a literal or an assignment.
-/
namespace TreeSema

/-- The names of an access chain, and the call, literal or assignment that its last name belongs
to. -/
structure Chain where
  path : List Ident
  tail : Option Node

/-- Adds the right side of an access to the path on its left. Of an assignment the target is the
last name; its value is no part of the path. -/
def Chain.extend (path : List Ident) (right : Node) : Option Chain :=
  match right with
  | .absent => none
  | .mk h cs _ _ =>
    match h.kind with
    | .ident => some ⟨path ++ [h.name], none⟩
    | .call | .lit => some ⟨path ++ [h.name], some right⟩
    | .assign =>
      match cs with
      | .mk target _ _ _ :: _ =>
        if target.kind = .ident then some ⟨path ++ [target.name], some right⟩ else none
      | _ => none
    | _ => none

namespace Node

/-- The chain that a node writes, if it is one. -/
def chain? : Node → Option Chain
  | absent => none
  | mk h cs fs b =>
    match h.kind with
    | .ident => some ⟨[h.name], none⟩
    | .call | .lit => some ⟨[h.name], some (mk h cs fs b)⟩
    | .dot | .path =>
      match cs with
      | left :: right :: _ =>
        match chain? left with
        | some ⟨path, none⟩ => Chain.extend path right
        | _ => none
      | _ => none
    | _ => none

/-- A chain with another call, literal or assignment at its end. -/
def withTail (n tail : Node) : Node :=
  match n with
  | mk h (left :: _ :: rest) fs b =>
    if h.kind = .dot ∨ h.kind = .path then mk h (left :: tail :: rest) fs b else tail
  | _ => tail

/-- The name that an expression starts from. -/
def origin : Node → Ident
  | absent => .missing
  | mk h cs _ _ =>
    match h.kind with
    | .ident => h.name
    | .dot | .path | .index | .deref =>
      match cs with
      | left :: _ => origin left
      | [] => .missing
    | _ => .missing

end Node

end TreeSema
