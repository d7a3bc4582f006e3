import TreeSema.Proofs.Following
import TreeSema.Proofs.Place.Runs

/-!
# Mutable borrows

An assignment asks `Analysis.place` whether its target may be written, a mutable borrow asks
`Symbols.place?`. The second looks at names, fields and elements only, and it looks at the operand
after its analysis. Where the operand is made of names, fields and elements both find one place, so
that a mutable borrow is rejected wherever an assignment is. A path and what a reference leads to
are no places to the second, and may be borrowed although they may not be written.

* `place?_of_accepted`: an operand that is accepted is the place that an assignment would write.
* `borrow_mut_rejected`: so a mutable borrow needs a place that may be written.
-/
namespace TreeSema

/-- A name, or a field or an element that dots and indices reach from one. -/
def Node.isDirect : Node → Bool
  | .absent => false
  | .mk h cs _ _ =>
    match h.kind with
    | .ident => true
    | .dot =>
      match cs with
      | left :: _ => isDirect left
      | [] => false
    | .index =>
      match cs with
      | base :: _ => isDirect base
      | [] => false
    | _ => false

theorem Node.not_path_of_isDirect : ∀ {n : Node}, n.isDirect = true →
    n.kind? ≠ some .path ∧ n.fieldOfPath = false
  | .absent, hn => by cases hn
  | .mk h [] fs b, hn => by
    cases hk : h.kind <;> simp_all [isDirect, fieldOfPath, kind?]
  | .mk h (c :: cs) fs b, hn => by
    have ih := @not_path_of_isDirect c
    cases hk : h.kind <;> simp_all [isDirect, fieldOfPath, kind?]

/-! ## Aliases -/

namespace Symbols

variable (t : Symbols)

/-- The record that a value leads to is that of the place behind its references and pointers. -/
theorem record?_of_pointee {p : Place} {rec} (h : t.record? (t.pointee p.type) = some rec) :
    t.record? (t.through p).type = some rec := by
  have hthrough : t.underlying (t.through p).type = t.pointee p.type := underlying_throughIn _ _ _
  rw [← hthrough] at h
  unfold record? at h ⊢
  rwa [underlying_underlying] at h

end Symbols

namespace Analysis

variable {cfg : Config}

/-- An operand that is accepted is, after its analysis, the place that an assignment would write. -/
theorem place?_of_accepted : ∀ (n : Node) {k k' : Nat} {expected type : Ty} {n₁ n₂ : Node}
    {p : Place} {s s₁ s₂ : State}, n.isDirect = true →
    exprAt cfg k n expected s = ((n₁, some type), s₁) →
    place (exprAt cfg k') n s = ((n₂, some p), s₂) → s.table.place? n₁ = some p ∧ type = p.type
  | .absent, _, _, _, _, _, _, _, _, _, _, hn, _, _ => by cases hn
  | .mk h cs fs b, k, k', expected, type, n₁, n₂, p, s, s₁, s₂, hn, hread, hplace => by
    obtain ⟨hpath, hfields⟩ := Node.not_path_of_isDirect hn
    cases hk : h.kind with
    | ident =>
      obtain ⟨rfl, e, v, he, hv, rfl⟩ := exprAt_name hk hread
      obtain ⟨⟨_, _, _, _⟩, v', he', hv', rfl⟩ := (place_name hk).of_run hplace _ rfl
      cases he.symm.trans he'
      dsimp only at hv hv'
      subst hv'
      cases hv
      unfold Symbols.place?
      simp [hk, Symbols.variablePlace?, he]
    | dot =>
      have hvalue := startsAtValue_of_place hpath hfields hplace
      obtain ⟨left, r, rcs, rfs, rb, rest, left₂, q, rec, ty, rfl, hr, hleft, hrec, hty, rfl⟩ :=
        (place_field hk).of_run hplace _ rfl
      obtain ⟨k, left₁, base, rec', ty', hbase, rfl, hrec', hty', rfl⟩ :=
        exprAt_field hr ⟨congrArg some hk, .inr hvalue⟩ hread
      simp only [Node.isDirect, hk] at hn
      obtain ⟨hq, rfl⟩ := place?_of_accepted left hn hbase hleft
      have hlags := exprAt_lags hbase
      have hlags' := place_lags hleft
      -- both find the field in the record that the place on the left leads to
      rw [← hlags.record?_pointee] at hrec'
      rw [← hlags'.record?_pointee, ← hlags'.same Symbols.through_filled,
        Symbols.record?_through hrec'] at hrec
      cases hrec
      cases hty.symm.trans hty'
      rw [← hlags.same₂ Symbols.qualifyAt_filled, ← hlags'.same₂ Symbols.qualifyAt_filled,
        ← hlags'.same Symbols.through_filled]
      simp [Symbols.place?, hk, hr, hq, s.table.record?_of_pointee hrec', hty]
    | index =>
      obtain ⟨base, idx, rest, base₂, q, s₃, rfl, hbase, helem⟩ :=
        (place_element hk).of_run hplace _ rfl
      obtain ⟨k, base₁, idx₁, found, s₄, hfound, rfl, helem'⟩ := exprAt_element hk hread
      simp only [Node.isDirect, hk] at hn
      obtain ⟨hq, rfl⟩ := place?_of_accepted base hn hfound hbase
      rw [← (place_lags hbase).same Symbols.underlying_filled] at helem
      rw [← (exprAt_lags hfound).same Symbols.underlying_filled] at helem'
      rcases helem with ⟨size, elem, hu, rfl⟩ | ⟨target, hu, rfl⟩
      · exact ⟨by unfold Symbols.place?; simp [hk, hq, hu], elem_unique helem' (.inl ⟨size, hu⟩)⟩
      · exact ⟨by unfold Symbols.place?; simp [hk, hq, hu], elem_unique helem' (.inr hu)⟩
    | _ =>
      unfold Node.isDirect at hn
      simp [hk] at hn

/-- A mutable borrow that is accepted is of an operand without an immutable root. -/
theorem borrow_returns {below} {h : Head} {expected operand rest} (hm : h.mutable = true) :
    Returns (borrow below h expected (operand :: rest)) fun s res _ => ∀ type, res.2 = some type →
      ∃ hint operand' found s₁, below operand hint s = ((operand', some found), s₁) ∧
        s₁.table.immutableRoot? operand' = none := by
  refine .symbols fun t => (Returns.run _).bind fun res => ?_
  obtain ⟨operand', _ | found⟩ := res
  · exact .pure fun _ _ _ _ _ => nofun
  · refine .symbols fun t₁ => ?_
    rw [hm]
    split
    · exact .report fun _ _ _ _ _ _ _ => nofun
    · rename_i hroot
      refine .pure fun s₁ ht s hrun _ type _ => ⟨_, operand', found, s₁, hrun, ?_⟩
      subst ht
      exact Option.eq_none_iff_forall_ne_some.2 fun name hname => hroot name hname rfl

/-- A mutable borrow needs a place that may be written: if assigning to a name, field or element is
out of the question, borrowing it as mutable is rejected, whatever type is expected and however
many levels are left. -/
theorem borrow_mut_rejected {cfg : Config} {k k' : Nat} {s : State} {n : Node} {p : Place}
    {h : Head} {rest : List Node} {fs : List (Component Node)} {b : Node} {expected : Ty}
    (hn : n.isDirect = true) (hplace : (place (exprAt cfg k') n s).1.2 = some p)
    (hp : p.writable = false) (hk : h.kind = .ref) (hm : h.mutable = true) :
    (exprAt cfg k (.mk h (n :: rest) fs b) expected s).1.2 = none := by
  refine Option.eq_none_iff_forall_ne_some.2 fun type htype => ?_
  obtain ⟨k, hrun⟩ := exprAt_step (Prod.ext (Prod.ext rfl htype) rfl)
  unfold exprStep at hrun
  simp only [hk] at hrun
  obtain ⟨cs', -, hborrow⟩ := (around_returns (borrow_returns hm)).of_run hrun
  obtain ⟨hint, n₁, found, s₁, hread, hroot⟩ := hborrow type rfl
  obtain ⟨hfound, -⟩ := place?_of_accepted n hn hread (Prod.ext (Prod.ext rfl hplace) rfl)
  rw [(exprAt_lags hread).same Symbols.place?_filled] at hfound
  simp [Symbols.immutableRoot?, hfound, hp] at hroot

/-- A borrow of one operand. -/
def mutableBorrow (n : Node) : Node := .ofChildren { kind := .ref, loc := {}, mutable := true } [n]

/-- An element of an array in a struct that an immutable variable holds. -/
theorem borrow_mut_rejected_element :
    let n : Node := .pair .index (.pair .dot (.ident "x") (.ident "f"))
      (.leaf { kind := .int, loc := {} })
    let s := finished {} .written 1000 [.record "S" [("f", .array 2 (.basic .i32))],
      .var "x" false (.custom [.name "S"]) []]
    (place (exprAt {} 9) n s).1.2 = some ⟨.name "x", .basic .i32, false, false⟩ ∧
      (exprAt {} 9 n .unknown s).1.2 = some (.basic .i32) ∧
      (exprAt {} 9 (mutableBorrow n) .unknown s).1.2 = none := by
  intro n s
  have hplace : (place (exprAt {} 9) n s).1.2 = some ⟨.name "x", .basic .i32, false, false⟩ := by
    decide +kernel
  exact ⟨hplace, by decide +kernel, borrow_mut_rejected rfl hplace rfl rfl rfl⟩

/-- A variable of a module, and what a reference leads to, are borrowed as mutable although neither
may be written. -/
theorem borrow_mut_of_path_and_target :
    let path : Node := .pair .path (.ident "m") (.ident "x")
    let target : Node := .ofChildren { kind := .deref, loc := {} } [.ident "r"]
    let one : Node := .leaf { kind := .int, loc := {}, integer := 1 }
    let s := finished {} .written 1000 [.inModule "m" [.var "x" false (.basic .i32) [one]],
        .var "r" false (.ref (.basic .i32) false) []]
    (place (exprAt {} 1000) path s).1.2 = some ⟨.name "x", .basic .i32, false, false⟩ ∧
      (exprAt {} 1000 (mutableBorrow path) .unknown s).1.2 = some (.ref (.basic .i32) true) ∧
      (place (exprAt {} 1000) target s).1.2 = some ⟨.name "r", .basic .i32, false, true⟩ ∧
      (exprAt {} 1000 (mutableBorrow target) .unknown s).1.2 = some (.ref (.basic .i32) true) := by
  decide +kernel

end Analysis

end TreeSema
