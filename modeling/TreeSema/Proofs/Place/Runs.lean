import TreeSema.Proofs.Confined.Type

/-!
# Accepted names, fields and elements

What is known of a run that accepts a name, a field, an element or what a reference leads to, from
whatever state: as an expression that is read, and as a place that is assigned to. The run may have
found errors before, so that nothing here rests on a clean state.

* `exprAt_name`, `exprAt_field`, `exprAt_element`, `exprAt_target`: expressions.
* `place_name`, `place_path`, `place_field`, `place_element`, `place_target`: places.
* `startsAtValue_of_place`: a field that is a place is selected from a value, not from a module.
-/
namespace TreeSema

/-- Does a place select a field, with a dot, of what a path names? -/
def Node.fieldOfPath : Node → Bool
  | .absent => false
  | .mk h cs _ _ =>
    match h.kind with
    | .dot =>
      match cs with
      | left :: _ => left.kind? == some .path || fieldOfPath left
      | [] => false
    | .index =>
      match cs with
      | base :: _ => fieldOfPath base
      | [] => false
    | _ => false

/-- The right side of an access adds one name. -/
theorem Chain.Extends.path_eq {path right} {c : Chain} (h : Chain.Extends path right c) :
    ∃ name, c.path = path ++ [name] := by
  cases h <;> exact ⟨_, rfl⟩

theorem Node.Writes.path_ne_nil {n : Node} {c : Chain} (h : n.Writes c) : c.path ≠ [] := by
  cases h with
  | name | built => simp
  | access _ _ hright =>
    obtain ⟨name, hpath⟩ := hright.path_eq
    simp [hpath]

namespace Analysis

variable {α : Type} {cfg : Config} {k : Nat} {below : ExprRule} {h r : Head} {cs rest rcs : List Node}
  {fs rfs : List (Component Node)} {b n n' left rb : Node} {expected type : Ty} {p : Place}
  {s s' : State}

/-! ## Expressions -/

/-- An accepted field of a value is one of the record that the value leads to. -/
theorem member_returns (hr : r.kind = .ident) :
    Returns (member below h (left :: .mk r rcs rfs rb :: rest)) fun s res s' =>
      ∀ type, res.2 = some type → ∃ left' base rec ty,
        below left .unknown s = ((left', some base), s') ∧
        res.1 = left' :: .mk r rcs rfs rb :: rest ∧
        s'.table.record? (s'.table.pointee base) = some rec ∧ rec.fields.get? r.name = some ty ∧
        type = s'.table.qualifyAt rec.path ty := by
  unfold member
  simp only [hr]
  refine (Returns.run _).bind fun res => ?_
  obtain ⟨left', _ | base⟩ := res
  · exact .pure fun _ _ _ => nofun
  · refine (fieldType_returns base r.name r.loc).bind fun field => ?_
    refine .pure fun s₂ s₁ hfield s hleft type htype => ?_
    obtain ⟨rfl, rec, ty, hrec, hty, -, rfl⟩ := hfield type htype
    exact ⟨left', base, rec, ty, hleft, rfl, hrec, hty, rfl⟩

theorem index_returns {base idx} :
    Returns (index below h (base :: idx :: rest)) fun s res _ =>
    ∀ type, res.2 = some type → ∃ base' idx' found s₁,
      below base .unknown s = ((base', some found), s₁) ∧ res.1 = base' :: idx' :: rest ∧
      ((∃ size, s₁.table.underlying found = .array size type) ∨
        s₁.table.underlying found = .ptr type) := by
  refine (Returns.run _).bind fun res => ?_
  obtain ⟨base', _ | found⟩ := res
  · exact .pure fun _ _ _ => nofun
  · refine (elementType_returns found h.loc).bind fun elem => ?_
    cases elem with
    | none => exact .pure fun _ _ _ _ _ => nofun
    | some elem =>
      refine (Returns.run _).bind fun res => ?_
      obtain ⟨idx', _ | _⟩ := res
      · exact .pure fun _ _ _ _ _ _ _ => nofun
      · refine .pure fun s₃ s₂ _ s₁ helem s hbase type htype => ?_
        cases htype
        exact ⟨base', idx', found, s₁, hbase, rfl, (helem _ rfl).2⟩

theorem deref_returns {operand} : Returns (deref below h (operand :: rest)) fun s res s' =>
    ∀ type, res.2 = some type → ∃ operand' found,
      below operand .unknown s = ((operand', some found), s') ∧
      ((∃ m, s'.table.underlying found = .ref type m) ∨
        s'.table.underlying found = .ptr type) := by
  refine (Returns.run _).bind fun res => ?_
  obtain ⟨operand', _ | found⟩ := res
  · exact .pure fun _ _ _ => nofun
  · refine .symbols fun t => ?_
    split
    · rename_i hu
      refine .pure fun s₁ ht s hoperand type htype => ?_
      cases htype
      exact ⟨operand', found, hoperand, .inl ⟨_, ht ▸ hu⟩⟩
    · rename_i hu
      refine .pure fun s₁ ht s hoperand type htype => ?_
      cases htype
      exact ⟨operand', found, hoperand, .inr (ht ▸ hu)⟩
    · exact .report fun _ _ _ _ _ _ => nofun

/-- A field of a value is read from the value. -/
theorem access_returns_field (hr : r.kind = .ident) :
    Returns (access below (.mk h (left :: .mk r rcs rfs rb :: rest) fs b)) fun s res s' =>
      s.table.SelectsField .read (.mk h (left :: .mk r rcs rfs rb :: rest) fs b) →
      ∀ type, res.2 = some type → ∃ left' base rec ty,
        below left .unknown s = ((left', some base), s') ∧
        res.1 = .mk h (left' :: .mk r rcs rfs rb :: rest) fs b ∧
        s'.table.record? (s'.table.pointee base) = some rec ∧ rec.fields.get? r.name = some ty ∧
        type = s'.table.qualifyAt rec.path ty := by
  refine .symbols fun t => ?_
  split
  · refine (member_returns hr).bind fun res => .pure fun s₁ s hres _ _ type htype => ?_
    obtain ⟨left', base, rec, ty, hleft, hcs, hrest⟩ := hres type htype
    exact ⟨left', base, rec, ty, hleft, congrArg (Node.mk h · fs b) hcs, hrest⟩
  · rename_i hmember
    intro s ht hfield
    subst ht
    exact absurd (Symbols.selectsField_read.1 hfield) hmember

/-- A rule for operands, with the node around them. -/
theorem around_returns {operands} {P : State → List Node × α → State → Prop}
    (ho : Returns operands P) :
    Returns (around h fs b operands) fun s r s' =>
      ∃ cs', r.1 = .mk h cs' fs b ∧ P s (cs', r.2) s' :=
  ho.bind fun res => .pure fun _ _ hres => ⟨res.1, rfl, hres⟩

theorem exprAt_name (hk : h.kind = .ident)
    (hrun : exprAt cfg k (.mk h cs fs b) expected s = ((n', some type), s')) :
    n' = .mk h cs fs b ∧
      ∃ e v, s.table.lookup h.name = some e ∧ e.kind = .var v ∧ type = v.type := by
  obtain ⟨k, hrun⟩ := exprAt_step hrun
  unfold exprStep at hrun
  simp only [hk] at hrun
  have hread := (readName_returns h).bind (f := fun r => pure (Node.mk h cs fs b, r))
    (Q := fun s r _ => r.1 = .mk h cs fs b ∧ ∀ type, r.2 = some type → ∃ e v,
      s.table.lookup h.name = some e ∧ e.kind = .var v ∧ type = v.type)
    fun r => .pure fun _ _ hr => ⟨rfl, hr⟩
  obtain ⟨hn, hr⟩ := hread.of_run hrun
  exact ⟨hn, hr type rfl⟩

theorem exprAt_field (hr : r.kind = .ident)
    (hfield : s.table.SelectsField .read (.mk h (left :: .mk r rcs rfs rb :: rest) fs b))
    (hrun : exprAt cfg k (.mk h (left :: .mk r rcs rfs rb :: rest) fs b) expected s
      = ((n', some type), s')) :
    ∃ k₀ left' base rec ty, exprAt cfg k₀ left .unknown s = ((left', some base), s') ∧
      n' = .mk h (left' :: .mk r rcs rfs rb :: rest) fs b ∧
      s'.table.record? (s'.table.pointee base) = some rec ∧ rec.fields.get? r.name = some ty ∧
      type = s'.table.qualifyAt rec.path ty := by
  obtain ⟨k, hrun⟩ := exprAt_step hrun
  have hchain : h.kind.isChain = true :=
    Kind.isChain_iff.2 (.inr (.inr (.inl (Option.some.inj hfield.1))))
  rw [exprStep_chain (n := .mk h _ fs b) hchain] at hrun
  exact ⟨k, (access_returns_field hr).of_run hrun hfield type rfl⟩

theorem exprAt_element {base idx} (hk : h.kind = .index)
    (hrun : exprAt cfg k (.mk h (base :: idx :: rest) fs b) expected s = ((n', some type), s')) :
    ∃ k₀ base' idx' found s₁, exprAt cfg k₀ base .unknown s = ((base', some found), s₁) ∧
      n' = .mk h (base' :: idx' :: rest) fs b ∧
      ((∃ size, s₁.table.underlying found = .array size type) ∨
        s₁.table.underlying found = .ptr type) := by
  obtain ⟨k, hrun⟩ := exprAt_step hrun
  unfold exprStep at hrun
  simp only [hk] at hrun
  obtain ⟨cs', rfl, hindex⟩ := (around_returns index_returns).of_run hrun
  obtain ⟨base', idx', found, s₁, hbase, rfl, helem⟩ := hindex type rfl
  exact ⟨k, base', idx', found, s₁, hbase, rfl, helem⟩

theorem exprAt_target {operand} (hk : h.kind = .deref)
    (hrun : exprAt cfg k (.mk h (operand :: rest) fs b) expected s = ((n', some type), s')) :
    ∃ k₀ operand' found, exprAt cfg k₀ operand .unknown s = ((operand', some found), s') ∧
      ((∃ m, s'.table.underlying found = .ref type m) ∨
        s'.table.underlying found = .ptr type) := by
  obtain ⟨k, hrun⟩ := exprAt_step hrun
  unfold exprStep at hrun
  simp only [hk] at hrun
  obtain ⟨cs', -, hderef⟩ := (around_returns deref_returns).of_run hrun
  exact ⟨k, hderef type rfl⟩

/-! ## Places -/

/-- An accepted entry is a variable. -/
theorem entryPlace_returns (loc : Location) (path : List Ident) (e : Option SymbolEntry) :
    Returns (entryPlace loc path e) fun _ r _ => ∀ p, r = some p → ∃ d v, e = some d ∧
      d.kind = .var v ∧ p = ⟨path.getLastD .missing, v.type, v.mutable, false⟩ := by
  unfold entryPlace
  split
  · exact .report fun _ _ _ hp => by cases hp
  · rename_i d
    split
    · rename_i v hv
      refine .pure fun _ p hp => ?_
      cases hp
      exact ⟨d, v, rfl, hv, rfl⟩
    · exact .report fun _ _ _ hp => by cases hp

/-- The place of a field is in the place that the field is selected from. -/
theorem memberPlace_returns {loc right leftPlace} :
    Returns (memberPlace loc left leftPlace right) fun s res s' => ∀ p, res.2 = some p →
      ∃ r rcs rfs rb left' q rec ty, right = .mk r rcs rfs rb ∧ r.kind = .ident ∧
        leftPlace s = ((left', some q), s') ∧
        s'.table.record? (s'.table.pointee (s'.table.through q).type) = some rec ∧
        rec.fields.get? r.name = some ty ∧
        p = { s'.table.through q with type := s'.table.qualifyAt rec.path ty } := by
  unfold memberPlace
  split
  · exact .report fun _ _ _ hp => by cases hp
  · rename_i r rcs rfs rb
    split
    · rename_i hr
      refine (Returns.run _).bind fun res => ?_
      obtain ⟨left', _ | q⟩ := res
      · exact .pure fun _ _ _ _ hp => by cases hp
      · refine .symbols fun t => (fieldType_returns _ _ _).bind fun field => ?_
        cases field with
        | none => exact .pure fun _ _ _ _ _ _ _ hp => by cases hp
        | some field =>
          refine .pure fun s₂ s₁ hfield ht s hleft p hp => ?_
          obtain ⟨rfl, rec, ty, hrec, hty, -, rfl⟩ := hfield field rfl
          subst ht
          cases hp
          exact ⟨r, rcs, rfs, rb, left', q, rec, ty, rfl, hr, hleft, hrec, hty, rfl⟩
    · exact .report fun _ _ _ hp => by cases hp

theorem elementPlace_returns (loc : Location) (q : Place) (idx : Node) :
    Returns (elementPlace below loc q idx) fun s res _ => ∀ p, res.2 = some p →
      (∃ size elem, s.table.underlying q.type = .array size elem ∧ p = { q with type := elem }) ∨
        ∃ target, s.table.underlying q.type = .ptr target ∧
          p = { q with type := target, writable := true, viaRef := false } := by
  refine (elementsPlace_returns loc q).bind fun element => ?_
  cases element with
  | none => exact .pure fun _ _ _ _ => nofun
  | some element =>
    refine (Returns.run _).bind fun res => ?_
    obtain ⟨idx', _ | _⟩ := res
    · exact .pure fun _ _ _ _ _ _ => nofun
    · refine .pure fun _ _ _ s helement p hp => ?_
      cases hp
      exact (helement _ rfl).2

theorem place_name (hk : h.kind = .ident) :
    Returns (place below (.mk h cs fs b)) fun s res _ => ∀ p, res.2 = some p →
      ∃ e v, s.table.lookup h.name = some e ∧ e.kind = .var v ∧
        p = ⟨h.name, v.type, v.mutable, false⟩ := by
  conv => arg 1; unfold place
  simp only [hk]
  refine .symbols fun t => (entryPlace_returns h.loc [h.name] (t.lookup h.name)).bind fun q => ?_
  refine .pure fun _ s hq ht p hp => ?_
  obtain ⟨e, v, he, hv, rfl⟩ := hq p hp
  exact ⟨e, v, ht ▸ he, hv, rfl⟩

theorem place_path (hk : h.kind = .path) :
    Returns (place below (.mk h cs fs b)) fun s res _ => ∀ p, res.2 = some p → ∃ path e v,
      (Node.mk h cs fs b).chain? = some ⟨path, none⟩ ∧ s.table.resolve path = some e ∧
      e.kind = .var v ∧ p.type = v.type := by
  conv => arg 1; unfold place
  simp only [hk]
  split
  · rename_i path hchain
    refine .symbols fun t => (entryPlace_returns _ path _).bind fun q => ?_
    refine .pure fun _ s hq ht p hp => ?_
    obtain ⟨e, v, he, hv, rfl⟩ := hq p hp
    exact ⟨path, e, v, hchain, ht ▸ he, hv, rfl⟩
  · exact .report fun _ _ _ => nofun

theorem place_field (hk : h.kind = .dot) :
    Returns (place below (.mk h cs fs b)) fun s res s' => ∀ p, res.2 = some p →
      ∃ left r rcs rfs rb rest left' q rec ty, cs = left :: .mk r rcs rfs rb :: rest ∧
        r.kind = .ident ∧ place below left s = ((left', some q), s') ∧
        s'.table.record? (s'.table.pointee (s'.table.through q).type) = some rec ∧
        rec.fields.get? r.name = some ty ∧
        p = { s'.table.through q with type := s'.table.qualifyAt rec.path ty } := by
  conv => arg 1; unfold place
  simp only [hk]
  split
  · rename_i left right rest
    refine memberPlace_returns.bind fun res => .pure fun _ s hres p hp => ?_
    obtain ⟨r, rcs, rfs, rb, left', q, rec, ty, rfl, hrest⟩ := hres p hp
    exact ⟨left, r, rcs, rfs, rb, rest, left', q, rec, ty, rfl, hrest⟩
  · exact fun _ _ => nofun

theorem place_element (hk : h.kind = .index) :
    Returns (place below (.mk h cs fs b)) fun s res _ => ∀ p, res.2 = some p →
      ∃ base idx rest base' q s₁, cs = base :: idx :: rest ∧
        place below base s = ((base', some q), s₁) ∧
        ((∃ size elem, s₁.table.underlying q.type = .array size elem ∧
          p = { q with type := elem }) ∨ ∃ target, s₁.table.underlying q.type = .ptr target ∧
          p = { q with type := target, writable := true, viaRef := false }) := by
  conv => arg 1; unfold place
  simp only [hk]
  split
  · rename_i base idx rest
    refine (Returns.run _).bind fun res => ?_
    obtain ⟨base', _ | q⟩ := res
    · exact .pure fun _ _ _ _ hp => by cases hp
    · refine (elementPlace_returns _ q idx).bind fun res => .pure fun _ s₁ hres s hbase p hp => ?_
      exact ⟨base, idx, rest, base', q, s₁, rfl, hbase, hres p hp⟩
  · exact fun _ _ hp => by cases hp

theorem place_target (hk : h.kind = .deref) :
    Returns (place below (.mk h cs fs b)) fun s res s' => ∀ p, res.2 = some p →
      ∃ operand rest operand' found, cs = operand :: rest ∧
        below operand .unknown s = ((operand', some found), s') ∧
        ((∃ m, s'.table.underlying found = .ref p.type m) ∨
          s'.table.underlying found = .ptr p.type) := by
  conv => arg 1; unfold place
  simp only [hk]
  split
  · rename_i operand rest
    refine (Returns.run _).bind fun res => ?_
    obtain ⟨operand', _ | found⟩ := res
    · exact .pure fun _ _ _ _ hp => by cases hp
    · refine (pointeePlace_returns _ _ found).bind fun q =>
        .pure fun _ s₁ hq s hoperand p hp => ?_
      obtain ⟨rfl, htarget⟩ := hq p hp
      exact ⟨operand, rest, operand', found, rfl, hoperand, htarget⟩
  · exact fun _ _ hp => by cases hp

/-- What is a place is a name, a path, a field, an element or what a reference leads to. -/
theorem place_kind : Returns (place below (.mk h cs fs b)) fun _ res _ => ∀ p, res.2 = some p →
    h.kind = .ident ∨ h.kind = .path ∨ h.kind = .dot ∨ h.kind = .index ∨ h.kind = .deref := by
  unfold place
  split
  iterate 5
    rename_i hk
    exact fun _ _ _ => by simp [hk]
  exact .report fun _ _ _ => nofun

/-- The table before a place lags behind the one after it. -/
theorem place_lags {r} (hrun : place (exprAt cfg k) n s = (r, s')) : s.table.Lags s'.table := by
  have hlevel : Level (fun _ => s.Marks) (fun _ _ => True) (exprAt cfg k) :=
    ⟨(marks_stable s).judging, trivial_rewriting _,
      exprAt_relates (marks_stable s) (trivial_rewriting _) cfg k⟩
  have hmarks : s.Marks (place (exprAt cfg k) n s).2 :=
    ((hlevel.place hereditary_true.inherited trivial).judges s (.refl s)).1
  rw [hrun] at hmarks
  exact hmarks.table

/-! ## Where places start -/

/-- A chain that is a place starts at a variable, unless there is a path in it. -/
theorem lookup_of_place : ∀ (n : Node) {n' : Node} {p : Place} {s s' : State} {name : Ident}
    {path : List Ident} {tail : Option Node}, n.kind? ≠ some .path → n.fieldOfPath = false →
    place below n s = ((n', some p), s') → n.Writes ⟨name :: path, tail⟩ →
    ∃ e v, s.table.lookup name = some e ∧ e.kind = .var v
  | .absent, _, _, _, _, _, _, _, _, _, _, hchain => by cases hchain
  | .mk h cs fs b, n', p, s, s', name, path, tail, hpath, hfields, hrun, hchain => by
    cases hchain with
    | name hk =>
      obtain ⟨e, v, he, hv, -⟩ := (place_name hk).of_run hrun p rfl
      exact ⟨e, v, he, hv⟩
    | built hk =>
      rcases place_kind.of_run hrun p rfl with hk' | hk' | hk' | hk' | hk' <;>
        rw [hk'] at hk <;> simp at hk
    | @access _ left right rest _ _ before _ hk hleft hright =>
      have hdot : h.kind = .dot := hk.resolve_right fun hk => hpath (congrArg some hk)
      obtain ⟨_, r, rcs, rfs, rb, _, left', q, -, -, hcs, -, hplace, -⟩ :=
        (place_field hdot).of_run hrun p rfl
      cases hcs
      simp only [Node.fieldOfPath, hdot, Bool.or_eq_false_iff, beq_eq_false_iff_ne] at hfields
      -- the chain starts with the path on the left, which is not empty
      obtain ⟨last, hbefore⟩ := hright.path_eq
      cases before with
      | nil => exact absurd rfl hleft.path_ne_nil
      | cons first before =>
        obtain ⟨rfl, -⟩ := List.cons.inj hbefore
        exact lookup_of_place left hfields.1 hfields.2 hplace hleft

/-- A field that is a place is selected from a value, unless there is a path before it. -/
theorem startsAtValue_of_place (hpath : n.kind? ≠ some .path) (hfields : n.fieldOfPath = false)
    (hrun : place below n s = ((n', some p), s')) : s.table.startsAtValue n = true := by
  unfold Symbols.startsAtValue
  split
  · rename_i hchain
    obtain ⟨⟨_, _, kind, _⟩, v, he, hv⟩ :=
      lookup_of_place n hpath hfields hrun (Node.chain?_eq_some_iff.1 hchain)
    dsimp only at hv
    subst hv
    rw [he]
  · rfl

end Analysis

end TreeSema
