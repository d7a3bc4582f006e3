import TreeSema.Proofs.Place.Runs

/-!
# What is read and what is written

A name, a field, an element or what a reference leads to can be read, and it can be assigned to. The
two have rules of their own: what is read is resolved as a chain first, what is written is followed
from its variable outwards. `Symbols.HasType` says what type such an expression has in a table.
Reading it gives a type that the rules allow, and they allow no other; the place that is written has
the same type.

They part where a field is selected, with a dot, of a variable that a path names. As a value such an
expression is one long path, in which the variable is passed over; as a place it is a field of the
variable.

* `HasType.read_unique`: an access has one type.
* `exprAt_hasType`: an access that is read has the type that the rules say.
* `read_type_eq_place_type`: it has the type of the place that it is when it is written.
-/
namespace TreeSema

/-- An expression that is built from names with dots, paths, indices and dereferences. -/
inductive Node.IsAccess : Node → Prop
  | name {h : Head} {cs fs b} (hkind : h.kind = .ident) : IsAccess (.mk h cs fs b)
  | member {h r : Head} {left rcs rest rfs fs rb b}
      (hkind : h.kind = .dot ∨ h.kind = .path) (hleft : IsAccess left)
      (hname : r.kind = .ident) : IsAccess (.mk h (left :: .mk r rcs rfs rb :: rest) fs b)
  | element {h : Head} {base idx rest fs b} (hkind : h.kind = .index) (hbase : IsAccess base) :
    IsAccess (.mk h (base :: idx :: rest) fs b)
  | target {h : Head} {operand rest fs b} (hkind : h.kind = .deref) (hoperand : IsAccess operand) :
    IsAccess (.mk h (operand :: rest) fs b)

namespace Symbols

variable {t : Symbols} {n : Node} {type type' : Ty}

namespace HasType

/-- An access has one type. -/
theorem read_unique (hty : t.HasType .read n type) (hn : n.IsAccess) :
    ∀ {type' : Ty}, t.HasType .read n type' → type = type' := by
  induction hn generalizing type with
  | name hk => exact hty.name_unique (not_selectsField hk (by simp)) (.inl (congrArg some hk))
  | @member h r left rcs rest rfs fs rb b hk _ _ ih =>
    intro type' hty'
    by_cases hfield : t.SelectsField .read (.mk h (left :: .mk r rcs rfs rb :: rest) fs b)
    · obtain ⟨base, rec, ty, hleft, hrec, hget, rfl⟩ := hty.field_inv hfield rfl
      obtain ⟨base', rec', ty', hleft', hrec', hget', rfl⟩ := hty'.field_inv hfield rfl
      cases ih hleft hleft'
      cases hrec.symm.trans hrec'
      cases hget.symm.trans hget'
      rfl
    · have hchain : h.kind.isChain = true := Kind.isChain_iff.2 (.inr (.inr hk))
      exact name_unique hfield (.inr hchain) hty hty'
  | element hk _ ih =>
    intro type' hty'
    obtain ⟨found, hbase, helem⟩ := hty.element_inv hk rfl
    obtain ⟨found', hbase', helem'⟩ := hty'.element_inv hk rfl
    cases ih hbase hbase'
    exact Analysis.elem_unique helem helem'
  | target hk _ ih =>
    intro type' hty'
    obtain ⟨found, hoperand, htarget⟩ := hty.target_inv hk rfl
    obtain ⟨found', hoperand', htarget'⟩ := hty'.target_inv hk rfl
    cases ih hoperand hoperand'
    exact Analysis.target_unique htarget htarget'

end HasType

end Symbols

namespace Analysis

variable {cfg : Config}

/-- A chain that ends in a name has nothing after it. -/
theorem tail_eq_none {h r : Head} {left rcs rest rfs fs rb b path tail} (hr : r.kind = .ident)
    (hk : h.kind = .dot ∨ h.kind = .path)
    (hchain : (Node.mk h (left :: .mk r rcs rfs rb :: rest) fs b).chain? = some ⟨path, tail⟩) :
    tail = none := by
  cases Node.chain?_eq_some_iff.1 hchain with
  | access _ _ hright =>
    cases hright with
    | name => rfl
    | built hk' => rcases hk' with hk' | hk' <;> rw [hr] at hk' <;> cases hk'
    | assigned hk' => rw [hr] at hk'; cases hk'
  | built hk' => rcases hk with hk | hk <;> simp [hk] at hk'
  | name hk' => rcases hk with hk | hk <;> simp [hk] at hk'

/-- An access that is read has the type that the rules say. -/
theorem exprAt_hasType {n : Node} (hn : n.IsAccess) : ∀ {k : Nat} {expected type : Ty} {n' : Node}
    {s s' : State}, exprAt cfg k n expected s = ((n', some type), s') →
    s.table.HasType .read n type := by
  induction hn with
  | name hk =>
    intro k expected type n' s s' hrun
    obtain ⟨-, e, v, he, hv, rfl⟩ := exprAt_name hk hrun
    exact .of_name hk he hv
  | @member h r left rcs rest rfs fs rb b hk _ hr ih =>
    intro k expected type n' s s' hrun
    by_cases hfield : s.table.SelectsField .read (.mk h (left :: .mk r rcs rfs rb :: rest) fs b)
    · obtain ⟨k, left', base, rec, ty, hleft, -, hrec, hty, rfl⟩ := exprAt_field hr hfield hrun
      have hlags := exprAt_lags hleft
      rw [← hlags.record?_pointee] at hrec
      rw [← hlags.same₂ Symbols.qualifyAt_filled]
      exact .field hfield hr (ih hleft) hrec hty
    · have hkind : h.kind.isChain = true := Kind.isChain_iff.2 (.inr (.inr hk))
      obtain ⟨⟨path, tail⟩, e, hchain, he, hmeans⟩ := exprAt_means
        (n := .mk h (left :: .mk r rcs rfs rb :: rest) fs b) hkind
        (Symbols.selectsField_read.not.1 hfield) hrun
      obtain rfl := tail_eq_none hr hk hchain
      rcases hmeans with ⟨v, hv, rfl | ⟨_, ⟨⟩, -⟩⟩ | ⟨-, hmade⟩
      · exact .variable hfield hchain he hv
      · exact .made hfield hchain he hmade
  | @element h base idx rest fs b hk _ ih =>
    intro k expected type n' s s' hrun
    obtain ⟨k, base', idx', found, s₁, hbase, -, helem⟩ := exprAt_element hk hrun
    rw [← (exprAt_lags hbase).same Symbols.underlying_filled] at helem
    exact .element hk (ih hbase) helem
  | @target h operand rest fs b hk _ ih =>
    intro k expected type n' s s' hrun
    obtain ⟨k, operand', found, hoperand, htarget⟩ := exprAt_target hk hrun
    rw [← (exprAt_lags hoperand).same Symbols.underlying_filled] at htarget
    exact .target hk (ih hoperand) htarget

/-- A place has the type that its value has when it is read. -/
theorem place_hasType {n : Node} (hn : n.IsAccess) : ∀ {k : Nat} {type : Ty} {n' : Node} {p : Place}
    {s s' : State}, n.fieldOfPath = false → s.table.HasType .read n type →
    place (exprAt cfg k) n s = ((n', some p), s') → type = p.type := by
  induction hn with
  | name hk =>
    intro k type n' p s s' _ htype hrun
    obtain ⟨e, v, he, hv, rfl⟩ := (place_name hk).of_run hrun _ rfl
    exact htype.read_unique (.name hk) (.of_name hk he hv)
  | @member h r left rcs rest rfs fs rb b hk hleft hr ih =>
    intro k type n' p s s' hfields htype hrun
    rcases hk with hk | hk
    · -- the field is selected from a value, since the place starts at a variable
      have hvalue := startsAtValue_of_place (by simp [Node.kind?, hk]) hfields hrun
      obtain ⟨base, rec, ty, hbase, hrec, hty, rfl⟩ :=
        htype.field_inv ⟨congrArg some hk, .inr hvalue⟩ rfl
      obtain ⟨_, _, _, _, _, _, left', q, rec', ty', hcs, -, hplace, hrec', hty', rfl⟩ :=
        (place_field hk).of_run hrun _ rfl
      cases hcs
      simp only [Node.fieldOfPath, hk, Bool.or_eq_false_iff] at hfields
      obtain rfl := ih hfields.2 hbase hplace
      have hlags := place_lags hplace
      rw [hlags.record?_pointee] at hrec
      cases (Symbols.record?_through hrec).symm.trans hrec'
      cases hty.symm.trans hty'
      exact hlags.same₂ Symbols.qualifyAt_filled _ _
    · obtain ⟨path, e, v, hchain, he, hv, hp⟩ := (place_path hk).of_run hrun _ rfl
      rw [hp]
      exact htype.read_unique (.member (.inr hk) hleft hr)
        (.variable (Symbols.not_selectsField hk (by simp)) hchain he hv)
  | @element h base idx rest fs b hk _ ih =>
    intro k type n' p s s' hfields htype hrun
    obtain ⟨found, hbase, helem⟩ := htype.element_inv hk rfl
    obtain ⟨_, _, _, base', q, s₁, hcs, hplace, helem'⟩ := (place_element hk).of_run hrun _ rfl
    cases hcs
    simp only [Node.fieldOfPath, hk] at hfields
    obtain rfl := ih hfields hbase hplace
    rw [(place_lags hplace).same Symbols.underlying_filled] at helem
    refine elem_unique helem ?_
    rcases helem' with ⟨size, elem, hu, rfl⟩ | ⟨target, hu, rfl⟩
    · exact .inl ⟨size, hu⟩
    · exact .inr hu
  | @target h operand rest fs b hk hoperand _ =>
    intro k type n' p s s' _ htype hrun
    obtain ⟨found, hread, htarget⟩ := htype.target_inv hk rfl
    obtain ⟨_, _, operand', found', hcs, hrun', htarget'⟩ := (place_target hk).of_run hrun _ rfl
    cases hcs
    obtain rfl := hread.read_unique hoperand (exprAt_hasType hoperand hrun')
    rw [(exprAt_lags hrun').same Symbols.underlying_filled] at htarget
    exact target_unique htarget htarget'

/-- An access that is accepted both as a value and as the target of an assignment has the same type
in both, with any numbers of levels left, unless a field is selected, with a dot, of what a path
names. -/
theorem read_type_eq_place_type {cfg : Config} {k k' : Nat} {s : State} {n : Node} {type : Ty}
    {p : Place} (hn : n.IsAccess) (hpath : n.fieldOfPath = false)
    (hread : (exprAt cfg k n .unknown s).1.2 = some type)
    (hplace : (place (exprAt cfg k') n s).1.2 = some p) : type = p.type :=
  place_hasType hn hpath (exprAt_hasType hn (Prod.ext (Prod.ext rfl hread) rfl))
    (Prod.ext (Prod.ext rfl hplace) rfl)

/-- An element of an array in a struct that is reached by a reference. -/
theorem read_type_eq_place_type_element :
    let n : Node := .pair .index (.pair .dot (.ident "r") (.ident "f"))
      (.leaf { kind := .int, loc := {} })
    let s := finished {} .written 1000 [.record "S" [("f", .array 2 (.basic .i32))],
      .var "r" false (.ref (.custom [.name "S"]) true) []]
    let p : Place := ⟨.name "r", .basic .i32, true, true⟩
    (exprAt {} 9 n .unknown s).1.2 = some (.basic .i32) ∧
      (place (exprAt {} 8) n s).1.2 = some p ∧ Ty.basic .i32 = p.type := by
  intro n s p
  have hread : (exprAt {} 9 n .unknown s).1.2 = some (.basic .i32) := by decide +kernel
  have hplace : (place (exprAt {} 8) n s).1.2 = some p := by decide +kernel
  have hn : n.IsAccess := .element rfl (.member (.inl rfl) (.name rfl) rfl)
  exact ⟨hread, hplace, read_type_eq_place_type hn rfl hread hplace⟩

/-- The field `f` of the variable `v` of the module `m` is written with another type than it is read
with, if there is a variable `f` in `m` as well. -/
theorem field_of_path_differs :
    let n : Node := .pair .dot (.pair .path (.ident "m") (.ident "v")) (.ident "f")
    let s := finished {} .written 1000 [.record "S" [("f", .basic .i32)],
      .inModule "m" [.record "S" [("f", .basic .i32)],
        .var "v" true (.custom [.name "S"]) [],
        .var "f" false (.basic .bool) [.leaf { kind := .bool, loc := {}, truth := true }]]]
    n.IsAccess ∧ (exprAt {} 1000 n .unknown s).1.2 = some (.basic .bool) ∧
      (place (exprAt {} 1000) n s).1.2 = some ⟨.name "v", .basic .i32, true, false⟩ := by
  refine ⟨.member (.inl rfl) (.member (.inr rfl) (.name rfl) rfl) rfl, ?_, ?_⟩
  · decide +kernel
  · decide +kernel

end Analysis

end TreeSema
