import TreeSema.Proofs.Parts

/-!
# Positions do not matter to the reader

The reader passes the positions of tokens on to the data that it makes of them, and does not look at
them: if all tokens stood nowhere, then so would the datum, and nothing else would change.

* `Datum.placeless`: a datum without its positions.
* `Datum.unplaced`: the same, with every ellipsis spelled in one way, as it is in whatever is read.
* `readTokens_placeless`: what is read of tokens that stand nowhere.
-/
namespace TreeSema

namespace Datum

mutual

/-- The datum without its positions. An ellipsis is spelled in one way. -/
def unplaced : Datum → Datum
  | absent => absent
  | atom _ notes .ellipsis _ => atom .nowhere (unplacedEntries notes) .ellipsis "..."
  | atom _ notes sort text => atom .nowhere (unplacedEntries notes) sort text
  | list _ notes items => list .nowhere (unplacedEntries notes) (unplacedAll items)
  | array _ notes items => array .nowhere (unplacedEntries notes) (unplacedAll items)
  | map _ notes entries => map .nowhere (unplacedEntries notes) (unplacedEntries entries)
  | unknown _ notes code => unknown .nowhere (unplacedEntries notes) code

def unplacedAll : List Datum → List Datum
  | [] => []
  | d :: ds => unplaced d :: unplacedAll ds

def unplacedEntries : List (String × Datum) → List (String × Datum)
  | [] => []
  | (key, d) :: es => (key, unplaced d) :: unplacedEntries es

end

mutual

/-- The datum without its positions, every text as it is. -/
def placeless : Datum → Datum
  | absent => absent
  | atom _ notes sort text => atom .nowhere (placelessEntries notes) sort text
  | list _ notes items => list .nowhere (placelessEntries notes) (placelessAll items)
  | array _ notes items => array .nowhere (placelessEntries notes) (placelessAll items)
  | map _ notes entries => map .nowhere (placelessEntries notes) (placelessEntries entries)
  | unknown _ notes code => unknown .nowhere (placelessEntries notes) code

def placelessAll : List Datum → List Datum
  | [] => []
  | d :: ds => placeless d :: placelessAll ds

def placelessEntries : List (String × Datum) → List (String × Datum)
  | [] => []
  | (key, d) :: es => (key, placeless d) :: placelessEntries es

end

@[simp] theorem unplacedAll_eq_map : ∀ ds : List Datum, unplacedAll ds = ds.map unplaced
  | [] => rfl
  | d :: ds => by rw [unplacedAll, unplacedAll_eq_map ds, List.map_cons]

@[simp] theorem unplacedEntries_eq_map : ∀ es : List (String × Datum),
    unplacedEntries es = es.map fun e => (e.1, e.2.unplaced)
  | [] => rfl
  | (key, d) :: es => by rw [unplacedEntries, unplacedEntries_eq_map es, List.map_cons]

@[simp] theorem placelessEntries_eq_map : ∀ es : List (String × Datum),
    placelessEntries es = es.map fun e => (e.1, e.2.placeless)
  | [] => rfl
  | (key, d) :: es => by rw [placelessEntries, placelessEntries_eq_map es, List.map_cons]

theorem placelessAll_eq {ds} (h : ∀ d ∈ ds, d.placeless = d.unplaced) :
    placelessAll ds = unplacedAll ds := by
  induction ds with
  | nil => rfl
  | cons d ds ih =>
    obtain ⟨hd, hds⟩ := List.forall_mem_cons.1 h
    rw [placelessAll, unplacedAll, hd, ih hds]

theorem placelessEntries_eq {es} (h : ∀ e ∈ es, e.2.placeless = e.2.unplaced) :
    placelessEntries es = unplacedEntries es := by
  induction es with
  | nil => rfl
  | cons e es ih =>
    obtain ⟨he, hes⟩ := List.forall_mem_cons.1 h
    obtain ⟨key, d⟩ := e
    rw [placelessEntries, unplacedEntries, he, ih hes]

/-- Of what is derived, every ellipsis is spelled alike. -/
theorem placeless_of_derives {ts} {d : Datum} (hd : Derives ts d) : d.placeless = d.unplaced := by
  induction d using induction_on_children generalizing ts with
  | step d ih =>
    have hchild : ∀ c ∈ d.children, c.placeless = c.unplaced := by
      intro c hc
      obtain ⟨_, -, hderives⟩ := hd.child hc
      exact ih c hc hderives
    have hitems := placelessAll_eq fun c hc => hchild c (mem_children_of_content hc)
    have hnotes := placelessEntries_eq fun e he => hchild e.2 (mem_children_of_note he)
    cases hd with
    | symbol | string | integer | ellipsis => rfl
    | list => exact congrArg₂ (list .nowhere) hnotes hitems
    | map =>
      have hentries := placelessEntries_eq fun e he =>
        hchild e.2 (mem_children_of_content (List.mem_map_of_mem he))
      exact congrArg (map .nowhere []) hentries
    | array => exact congrArg (array .nowhere []) hitems

end Datum

/-! ## Tokens that stand nowhere -/

/-- The token, standing nowhere. -/
def Token.placeless (t : Token) : Token := ⟨.nowhere, t.lexeme⟩

def Stop.placeless (s : Stop) : Stop := ⟨s.wanted, s.rest.map Token.placeless⟩

/-- What a result comes to if the tokens stand nowhere; `f` takes the positions from what was read. -/
def unplace {α β : Type} (f : α → β) : Except Stop α → Except Stop β
  | .error s => .error s.placeless
  | .ok a => .ok (f a)

open Datum (placelessEntries placelessAll)

theorem setNote_placeless (notes : List (String × Datum)) (key : String) (d : Datum) :
    setNote (placelessEntries notes) key d.placeless = placelessEntries (setNote notes key d) := by
  have hany : (notes.map fun e => (e.1, e.2.placeless)).any (·.1 == key) =
      notes.any (·.1 == key) := by
    rw [List.any_map]
    rfl
  simp only [Datum.placelessEntries_eq_map]
  unfold setNote
  rw [hany]
  split
  · rw [List.map_map, List.map_map]
    refine List.map_congr_left fun n _ => ?_
    simp only [Function.comp_apply]
    split <;> rfl
  · simp

theorem mergeNotes_placeless (notes entries : List (String × Datum)) :
    mergeNotes (placelessEntries notes) (placelessEntries entries) =
      placelessEntries (mergeNotes notes entries) := by
  induction entries generalizing notes with
  | nil => rfl
  | cons e entries ih =>
    obtain ⟨key, d⟩ := e
    calc mergeNotes (placelessEntries notes) (placelessEntries ((key, d) :: entries))
        = mergeNotes (setNote (placelessEntries notes) key d.placeless)
            (placelessEntries entries) := rfl
      _ = mergeNotes (placelessEntries (setNote notes key d)) (placelessEntries entries) := by
          rw [setNote_placeless]
      _ = placelessEntries (mergeNotes (setNote notes key d) entries) := ih _

theorem unplace_bind {α β γ δ : Type} {f : α → β} {g : γ → δ} {x y} {k : α → Except Stop γ}
    {k' : β → Except Stop δ} (hx : y = unplace f x) (hk : ∀ a, k' (f a) = unplace g (k a)) :
    (y >>= k') = unplace g (x >>= k) := by
  subst hx
  cases x with
  | error s => rfl
  | ok a => exact hk a

/-- With this much fuel, the reader does not look at positions. -/
structure ReadsPlaceless (fuel : Nat) : Prop where
  datum (ts : List Token) : readDatum fuel (ts.map Token.placeless) =
    unplace (fun r => (r.1.placeless, r.2.map Token.placeless)) (readDatum fuel ts)
  items (notes : List (String × Datum)) (ts : List Token) :
    readItems fuel (placelessEntries notes) (ts.map Token.placeless) =
      unplace (fun r => (placelessEntries r.1, placelessAll r.2.1, r.2.2.map Token.placeless))
        (readItems fuel notes ts)
  entries (ts : List Token) : readEntries fuel (ts.map Token.placeless) =
    unplace (fun r => (placelessEntries r.1, r.2.map Token.placeless)) (readEntries fuel ts)
  elements (ts : List Token) : readElements fuel (ts.map Token.placeless) =
    unplace (fun r => (placelessAll r.1, r.2.map Token.placeless)) (readElements fuel ts)

theorem ReadsPlaceless.succ {fuel : Nat} (ih : ReadsPlaceless fuel) : ReadsPlaceless (fuel + 1) where
  datum ts := by
    cases ts with
    | nil => rfl
    | cons t ts =>
      obtain ⟨p, x⟩ := t
      cases x with
      | openParen => exact unplace_bind (ih.items [] ts) fun r => rfl
      | openBrace => exact unplace_bind (ih.entries ts) fun r => rfl
      | openBracket => exact unplace_bind (ih.elements ts) fun r => rfl
      | _ => rfl
  items notes ts := by
    cases ts with
    | nil => rfl
    | cons t ts =>
      obtain ⟨p, x⟩ := t
      cases x with
      | closeParen => rfl
      | caret =>
        cases ts with
        | nil => rfl
        | cons t ts =>
          obtain ⟨q, y⟩ := t
          cases y with
          | openBrace =>
            refine unplace_bind (ih.entries ts) fun r => ?_
            rw [← ih.items, ← mergeNotes_placeless]
          | _ => rfl
      | _ =>
        refine unplace_bind (ih.datum _) fun r => ?_
        exact unplace_bind (ih.items notes r.2) fun r' => rfl
  entries ts := by
    cases ts with
    | nil => rfl
    | cons t ts =>
      obtain ⟨p, x⟩ := t
      cases x with
      | symbol key =>
        cases ts with
        | nil => rfl
        | cons t ts =>
          obtain ⟨q, y⟩ := t
          cases y with
          | colon =>
            refine unplace_bind (ih.datum ts) fun r => ?_
            obtain ⟨d, rest⟩ := r
            cases rest with
            | nil => rfl
            | cons t rest =>
              obtain ⟨q', z⟩ := t
              cases z with
              | comma => exact unplace_bind (ih.entries rest) fun r => rfl
              | _ => rfl
          | _ => rfl
      | _ => rfl
  elements ts := by
    cases ts with
    | nil => rfl
    | cons t ts =>
      obtain ⟨p, x⟩ := t
      cases x with
      | closeBracket => rfl
      | _ =>
        refine unplace_bind (ih.datum _) fun r => ?_
        exact unplace_bind (ih.elements r.2) fun r' => rfl

theorem readsPlaceless (fuel : Nat) : ReadsPlaceless fuel := by
  induction fuel with
  | zero => exact ⟨fun _ => rfl, fun _ _ => rfl, fun _ => rfl, fun _ => rfl⟩
  | succ fuel ih => exact ih.succ

theorem readTokens_placeless (ts : List Token) :
    readTokens (ts.map Token.placeless) = unplace Datum.placeless (readTokens ts) := by
  unfold readTokens
  rw [List.length_map, (readsPlaceless _).datum]
  cases readDatum (2 * ts.length + 1) ts with
  | error s => rfl
  | ok r =>
    obtain ⟨d, rest⟩ := r
    cases rest <;> rfl

end TreeSema
