import TreeSema.Analysis.Chain

/-!
# The form of access chains

`Node.Writes n c` is the grammar of access chains: the names on the left of an access are plain, and
a call, a literal or an assignment stands only at the end.

* `chain?_eq_some_iff`: reading a chain gives what its grammar says.
* `Writes.end_cases`: a chain that ends in a call, a literal or an assignment is that node itself or
  an access with that node on its right.
-/
namespace TreeSema

/-- How the right side of an access adds to the path on its left. -/
inductive Chain.Extends (path : List Ident) : Node → Chain → Prop
  | name {h : Head} {cs fs b}
      (hkind : h.kind = .ident) : Extends path (.mk h cs fs b) ⟨path ++ [h.name], none⟩
  | built {h : Head} {cs fs b} (hkind : h.kind = .call ∨ h.kind = .lit) :
    Extends path (.mk h cs fs b) ⟨path ++ [h.name], some (.mk h cs fs b)⟩
  | assigned {h target : Head} {cs tcs fs tfs b tb}
      (hkind : h.kind = .assign) (htarget : target.kind = .ident) :
    Extends path (.mk h (.mk target tcs tfs tb :: cs) fs b)
      ⟨path ++ [target.name], some (.mk h (.mk target tcs tfs tb :: cs) fs b)⟩

theorem Chain.extend_eq_some_iff {path right c} :
    Chain.extend path right = some c ↔ Chain.Extends path right c := by
  constructor
  · intro hx
    cases right with
    | absent => simp [Chain.extend] at hx
    | mk h cs fs b =>
      unfold Chain.extend at hx
      dsimp only at hx
      split at hx
      · rename_i hk; cases hx; exact .name hk
      · rename_i hk; cases hx; exact .built (.inl hk)
      · rename_i hk; cases hx; exact .built (.inr hk)
      · rename_i hk
        split at hx
        · split at hx
          · rename_i ht; cases hx; exact .assigned hk ht
          · cases hx
        · cases hx
      · cases hx
  · intro hx
    cases hx with
    | name hk => simp [Chain.extend, hk]
    | built hk => rcases hk with hk | hk <;> simp [Chain.extend, hk]
    | assigned hk ht => simp [Chain.extend, hk, ht]

namespace Node

/-- The chain that a node writes. -/
inductive Writes : Node → Chain → Prop
  | name {h : Head} {cs fs b} (hkind : h.kind = .ident) : Writes (.mk h cs fs b) ⟨[h.name], none⟩
  | built {h : Head} {cs fs b} (hkind : h.kind = .call ∨ h.kind = .lit) :
    Writes (.mk h cs fs b) ⟨[h.name], some (.mk h cs fs b)⟩
  | access {h : Head} {left right rest fs b path c} (hkind : h.kind = .dot ∨ h.kind = .path)
      (hleft : Writes left ⟨path, none⟩) (hright : Chain.Extends path right c) :
    Writes (.mk h (left :: right :: rest) fs b) c

theorem writes_of_chain? : ∀ (n : Node) {c : Chain}, n.chain? = some c → n.Writes c
  | .absent, _, hx => by simp [chain?] at hx
  | .mk h cs fs b, c, hx => by
    unfold chain? at hx
    split at hx
    · rename_i hk; cases hx; exact .name hk
    · rename_i hk; cases hx; exact .built (.inl hk)
    · rename_i hk; cases hx; exact .built (.inr hk)
    iterate 2
      rename_i hk
      split at hx
      · rename_i left right rest
        split at hx
        · rename_i path hl
          exact .access (by simp [hk]) (writes_of_chain? left hl) (Chain.extend_eq_some_iff.1 hx)
        · cases hx
      · cases hx
    · cases hx

theorem chain?_eq_some_iff {n : Node} {c} : n.chain? = some c ↔ n.Writes c := by
  refine ⟨writes_of_chain? n, fun h => ?_⟩
  induction h with
  | name hk => unfold chain?; simp [hk]
  | built hk => unfold chain?; rcases hk with hk | hk <;> simp [hk]
  | access hk _ hr ih =>
    have := Chain.extend_eq_some_iff.2 hr
    unfold chain?
    rcases hk with hk | hk <;> simp [hk, ih, this]

/-- The end of a chain is the chain itself or its right side, and is what `withTail` replaces. -/
theorem Writes.end_cases {n tail : Node} {path} (h : n.Writes ⟨path, some tail⟩) :
    (n = tail ∧ ∀ t, n.withTail t = t) ∨
      ∃ hd left rest fs b, n = .mk hd (left :: tail :: rest) fs b ∧
        ∀ t, n.withTail t = .mk hd (left :: t :: rest) fs b := by
  cases h with
  | @built h cs fs b hk =>
    refine .inl ⟨rfl, fun t => ?_⟩
    unfold withTail
    split
    · rename_i he
      cases he
      rw [if_neg]
      rcases hk with hk | hk <;> simp [hk]
    · rfl
  | @access h left right rest fs b p c hk hl hr =>
    have hwith : ∀ t, (mk h (left :: right :: rest) fs b).withTail t
        = .mk h (left :: t :: rest) fs b := fun t => if_pos hk
    cases hr with
    | built hk' => exact .inr ⟨h, left, rest, fs, b, rfl, hwith⟩
    | assigned hk' ht => exact .inr ⟨h, left, rest, fs, b, rfl, hwith⟩

end Node

end TreeSema
