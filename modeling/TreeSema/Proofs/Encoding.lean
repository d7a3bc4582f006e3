import TreeSema.Proofs.Components
import TreeSema.Proofs.Needs.Run
import TreeSema.Proofs.Walk

/-!
# Values of variants can be told apart

The arms of a variant are numbered in the order in which they are declared, whichever of them are
declared again, and a constructor becomes a literal with the number of its arm and what the arm
carries. So the number alone says which arm a value belongs to, and the payload holds what was given
for it and nothing else.

* `VariantBody.Numbered.ordinal_eq_iff`: arms with one number are the same.
* `construct_returns`: what an accepted constructor is made into.
* `constructors_decodable`: variants are numbered in every table that is reached, and constructors
  are told apart by their numbers.
-/
namespace TreeSema

/-! ## Numbered variants -/

namespace VariantBody.Numbered

variable {owner : Ident} {d : VariantBody} {arm arm' : Ident} {m m' : ArmMember}

/-- The number of an arm is its place in the order. -/
theorem place (h : d.Numbered owner) (hm : d.arms.get? arm = some m) :
    ∃ i : Nat, d.order[i]? = some arm ∧ m.owner = owner ∧ m.ordinal = i := by
  have hkey : arm ∈ d.arms.keys := OrderedMap.get?_isSome_iff.1 (by rw [hm]; rfl)
  obtain ⟨i, hi⟩ := List.mem_iff_getElem?.1 (h.keys ▸ hkey)
  obtain ⟨m', hm', howner, hordinal⟩ := h.arms i arm hi
  cases hm.symm.trans hm'
  exact ⟨i, hi, howner, hordinal⟩

/-- Arms with one number are the same. -/
theorem ordinal_eq_iff (h : d.Numbered owner) (hm : d.arms.get? arm = some m)
    (hm' : d.arms.get? arm' = some m') : m.ordinal = m'.ordinal ↔ arm = arm' := by
  constructor
  · intro heq
    obtain ⟨i, hi, -, hordinal⟩ := h.place hm
    obtain ⟨j, hj, -, hordinal'⟩ := h.place hm'
    obtain rfl : i = j := by omega
    exact Option.some.inj (hi.symm.trans hj)
  · rintro rfl
    cases hm.symm.trans hm'
    rfl

end VariantBody.Numbered

/-- Each variant in a table, and in the tables of its modules at any depth, has numbered arms. -/
def Symbols.Numbered (t : Symbols) : Prop :=
  ∀ (B : Symbols) (e : SymbolEntry) (d : VariantBody),
    t.Within B → B.Holds e → e.kind = .variantDef d → d.Numbered e.name

theorem Symbols.Lawful.numbered {t : Symbols} (h : t.Lawful) : t.Numbered := by
  intro B e d hB he hk
  induction hB with
  | refl => exact (h.entry he).arms d hk
  | module hm hbody _ ih => exact ih (h.module hm hbody) he

/-- An arm that a path leads to is one of the variant that the path without it leads to. -/
theorem Symbols.variant_of_arm {t : Symbols} (ht : t.Sound) {path : List Ident} {e : SymbolEntry}
    (he : t.resolve path = some e) {owner payload} {ordinal : Int}
    (hk : e.kind = .variantArm owner payload ordinal) :
    ∃ v d, t.resolve path.dropLast = some v ∧ v.kind = .variantDef d ∧
      d.arms.get? (path.getLastD .missing) = some ⟨owner, payload, ordinal, e.loc⟩ := by
  have hirregular : ¬ e.Regular := by simp [Entry.Regular, hk]
  obtain ⟨v, hv, howns⟩ := (finds_of_resolve he).owner ht hirregular
  obtain ⟨d, hd, -, hm⟩ := howns.variantArm hk
  exact ⟨v, d, hv.resolve, hd, hm⟩

/-! ## Literals -/

namespace Node

/-- A literal of a type, with components of these names and values and with nothing else. -/
structure IsLiteral (n : Node) (type : Ty) (components : List (Ident × Node)) : Prop where
  kind : n.kind? = some .literal
  type : n.head.type = type
  children : n.children = []
  fields : (n.fields.map fun f => (f.name, f.value)) = components

theorem isLiteral_ofFields (loc : Location) (type : Ty) (fs : List (Component Node)) :
    (ofFields { kind := .literal, loc, type } fs).IsLiteral type
      (fs.map fun f => (f.name, f.value)) := ⟨rfl, rfl, rfl, rfl⟩

/-- A value of the arm `arm` of a variant: the number of the arm, and a payload with one component
for the arm, which is a literal of the struct that holds what the arm carries. -/
def Tagged (n : Node) (variant : List Ident) (owner arm : Ident) (tag : Int)
    (carried : List (Ident × Node)) : Prop :=
  ∃ number union inner : Node,
    n.IsLiteral (.custom variant) [(.name "discriminant", number), (.name "payload", union)] ∧
    number = .leaf { kind := .int, loc := n.loc, integer := tag } ∧
    union.IsLiteral .unknown [(arm, inner)] ∧
    inner.IsLiteral (.custom (variant.dropLast ++ [payloadStruct owner arm])) carried

/-- The number that a value of a variant carries. -/
def tag? (n : Node) : Option Int :=
  (n.fields.find? (·.name = .name "discriminant")).map (·.value.head.integer)

theorem Tagged.tag? {n : Node} {variant owner arm} {tag : Int} {carried}
    (h : n.Tagged variant owner arm tag carried) : n.tag? = some tag := by
  obtain ⟨number, union, inner, hn, hnumber, -, -⟩ := h
  obtain ⟨f, rest, hfields, hf, -⟩ := List.map_eq_cons_iff.1 hn.fields
  obtain ⟨hname, hvalue⟩ := Prod.mk.inj hf
  simp [Node.tag?, hfields, hname, hvalue, hnumber, leaf, head]

end Node

namespace Analysis

open Node (Tagged)

variable {cfg : Config} {schedule : Schedule} {tree : Node} {below : ExprRule} {n : Node} {c : Chain}
  {s s' : State}

/-! ## What is given to a constructor -/

variable (below) in
/-- What an arm carries, given the call or literal at the end of a path: nothing, or the arguments
by their places and as many as are declared, or the last value that is given for each of some
declared fields. -/
inductive Supplied (path : List Ident) : Payload → Option Node → List (Ident × Node) → Prop
  | common {tail} (hnothing : carriesNothing tail = true) :
      Supplied path .common tail []
  | tuple {types : List Ty} {h : Head} {cs : List Node} {fs b} {carried : List (Ident × Node)}
      (hcall : h.kind = .call) (harity : cs.length = types.length)
      (names : carried.map (·.1) = (List.range types.length).map componentName)
      (values : List.Forall₂ (fun given value => Fills below path given.1 given.2 value)
        (types.zip cs) (carried.map (·.2))) :
    Supplied path (.tuple types) (some (.mk h cs fs b)) carried
  | struct {fields : Fields} {h : Head} {cs fs b} {carried : List (Ident × Node)}
      (hlit : h.kind = .lit) (nodup : (carried.map (·.1)).Nodup)
      (names : ∀ f ∈ fs, f.name ∈ carried.map (·.1))
      (values : ∀ part ∈ carried, ∃ type, fields.get? part.1 = some type ∧
        ∃ f ∈ fs, f.name = part.1 ∧ Fills below path type f.value part.2) :
    Supplied path (.struct fields) (some (.mk h cs fs b)) carried

/-- The arguments of a constructor are named by their places. -/
theorem tuplePayload_returns (path : List Ident) : ∀ (i : Nat) (types : List Ty) (vs : List Node),
    vs.length = types.length → Returns (tuplePayload below path i types vs) fun _ r _ =>
      ∀ built, r.2 = some built →
        built.map (·.name) = (List.range' i types.length).map componentName ∧
        List.Forall₂ (fun given value => Fills below path given.1 given.2 value)
          (types.zip vs) (built.map (·.value))
  | _, _ :: _, [], h => by simp at h
  | _, [], _ :: _, h => by simp at h
  | _, [], [], _ => .pure fun _ => by rintro _ ⟨⟩; exact ⟨rfl, .nil⟩
  | i, type :: types, v :: rest, h => by
    refine .symbols fun t => (Returns.run _).bind fun ⟨v', ok⟩ => ?_
    cases ok with
    | false => exact .pure fun _ _ _ _ => nofun
    | true =>
      refine (tuplePayload_returns path (i + 1) types rest (by simpa using h)).bind
        fun ⟨rest', built⟩ => .pure fun s₂ s₁ hrest s hv ht built' hbuilt => ?_
      obtain ⟨built, rfl, rfl⟩ := Option.map_eq_some_iff.1 hbuilt
      obtain ⟨hnames, hvalues⟩ := hrest built rfl
      subst ht
      exact ⟨by simp [hnames, List.range'_succ], .cons ⟨s, by rw [hv]⟩ hvalues⟩

/-- No name is lost when later components replace earlier ones. -/
theorem mem_names_kept {fs} {f : Component Node} (hf : f ∈ fs) :
    f.name ∈ (kept fs).map (·.name) := by
  have hfound : ((kept fs).find? (·.name == f.name)).isSome := by
    rw [find?_kept, List.find?_isSome]
    exact ⟨f, List.mem_reverse.2 hf, beq_self_eq_true f.name⟩
  simpa using hfound

/-- Each declared field that is given is built once, with the last value given for it. -/
theorem supplied_struct {fields path} {h : Head} {cs} {fs fs' built : List (Component Node)} {b}
    (hlit : h.kind = .lit) (hfs : List.Forall₂ (FillsField below fields path) fs fs')
    (hbuilt : built.Perm (kept fs')) :
    Supplied below path (.struct fields) (some (.mk h cs fs b))
      (built.map fun f => (f.name, f.value)) := by
  have hnames : (built.map fun f => (f.name, f.value)).map (·.1) = built.map (·.name) := by
    simp [List.map_map, Function.comp_def]
  refine .struct hlit ?_ (fun f hf => ?_) fun part hpart => ?_
  · rw [hnames]
    exact (hbuilt.map _).nodup_iff.2 (nodup_kept fs')
  · obtain ⟨f', hf', hfill⟩ := exists_of_forall₂_left hfs hf
    rw [hnames, ← hfill.name]
    exact (hbuilt.map _).mem_iff.2 (mem_names_kept hf')
  · obtain ⟨f', hf', rfl⟩ := List.mem_map.1 hpart
    obtain ⟨f, hf, hfill⟩ := exists_of_forall₂_right hfs (mem_of_mem_kept (hbuilt.subset hf'))
    obtain ⟨type, htype, hvalue⟩ := hfill.value
    exact ⟨type, hfill.name ▸ htype, f, hf, hfill.name.symm, hvalue⟩

theorem constructorPayload_returns (payload : Payload) :
    Returns (constructorPayload below n c payload) fun _ r _ => ∀ built, r.2 = some built →
      Supplied below c.path payload c.tail (built.map fun f => (f.name, f.value)) := by
  unfold constructorPayload
  split
  · split
    · rename_i hnothing
      refine .pure fun _ => ?_
      rintro _ ⟨⟩
      exact .common hnothing
    · exact .report fun _ _ _ => nofun
  · rename_i types h cs fs b htail
    split
    · exact .report fun _ _ _ => nofun
    · rename_i hcall
      split
      · exact .report fun _ _ _ => nofun
      · rename_i hlen
        have hlen := not_not.1 hlen
        refine (tuplePayload_returns c.path 0 types cs hlen).bind fun ⟨cs', built⟩ =>
          .pure fun s₁ s hbuilt built' he => ?_
        obtain ⟨hnames, hvalues⟩ := hbuilt built' he
        rw [htail]
        refine .tuple (not_not.1 (not_or.1 hcall).1) hlen ?_ ?_
        · simpa [List.map_map, Function.comp_def, List.range_eq_range'] using hnames
        · simpa [List.map_map, Function.comp_def] using hvalues
  · rename_i fields h cs fs b htail
    split
    · exact .report fun _ _ _ => nofun
    · rename_i hlit
      refine (components_returns fields c.path [] fs).bind fun ⟨fs', built⟩ =>
        .pure fun s₁ s hbuilt built' he => ?_
      obtain ⟨hfs, rfl⟩ := hbuilt built' he
      rw [htail]
      exact supplied_struct (not_not.1 hlit) hfs (foldl_putComponent_perm fs')
  · exact .report fun _ _ _ => nofun
  · exact .report fun _ _ _ => nofun

theorem tagged_encodeArm (loc : Location) (variant : List Ident) (owner arm : Ident) (tag : Int)
    (built : List (Component Node)) :
    (encodeArm loc variant (variant.dropLast ++ [payloadStruct owner arm]) arm tag built).Tagged
      variant owner arm tag (built.map fun f => (f.name, f.value)) := by
  let inner : Node := .ofFields
    { kind := .literal, loc, type := .custom (variant.dropLast ++ [payloadStruct owner arm]) } built
  exact ⟨_, _, inner, Node.isLiteral_ofFields .., rfl, Node.isLiteral_ofFields ..,
    Node.isLiteral_ofFields ..⟩

variable (below n c) in
/-- An accepted constructor is made into a value of its arm. -/
theorem construct_returns (owner : Ident) (payload : Payload) (ordinal : Int) :
    Returns (construct below n c owner payload ordinal) fun _ r s' => ∀ type, r.2 = some type →
      type = .custom (s'.table.canonical c.path.dropLast) ∧
      ∃ carried, Supplied below c.path payload c.tail carried ∧
        r.1.Tagged (s'.table.canonical c.path.dropLast) owner (c.path.getLastD .missing) ordinal
          carried := by
  refine (constructorPayload_returns payload).bind fun ⟨n', built⟩ => ?_
  cases built with
  | none => exact .pure fun _ _ _ _ => nofun
  | some built =>
    dsimp only
    split
    · exact .report fun _ _ _ _ _ => nofun
    · refine .symbols fun t => .pure fun s₁ ht s hbuilt type htype => ?_
      cases htype
      subst ht
      exact ⟨rfl, _, hbuilt built rfl, tagged_encodeArm _ _ _ _ _ _⟩

/-! ## Accepted constructors -/

/-- A path, which may end in a call or a literal, that leads to an arm of a variant. -/
structure NamesArm (s : State) (n : Node) (c : Chain) (owner : Ident) (payload : Payload)
    (ordinal : Int) : Prop where
  kind : n.kind?.any Kind.isChain
  qualified : ¬ (n.kind? = some .dot ∧ s.table.startsAtValue n)
  chain : n.chain? = some c
  arm : ∃ e, s.table.resolve c.path = some e ∧ e.kind = .variantArm owner payload ordinal

theorem NamesArm.exprAt {owner payload} {ordinal : Int} (h : NamesArm s n c owner payload ordinal)
    (k : Nat) (expected : Ty) :
    exprAt cfg (k + 1) n expected s = construct (exprAt cfg k) n c owner payload ordinal s := by
  obtain ⟨e, he, hk⟩ := h.arm
  refine (congrFun (exprStep_chain h.kind) s).trans ?_
  unfold access
  rw [bind_apply, symbols_apply]
  dsimp only
  rw [if_neg h.qualified]
  simp only [h.chain, he, named, hk]

/-- The type that a path leads to is named by its modules and its last segment, also after variables
got values. -/
theorem canonical_of_touches (htouches : s.Touches s') {path} {v : SymbolEntry} {d}
    (hv : s.table.resolve path = some v) (hk : v.kind = .variantDef d) :
    s.table.resolve (s'.table.canonical path) = some v := by
  have hmodules : s'.table.modulesOf path = s.table.modulesOf path :=
    (Symbols.finds_of_resolve hv).modulesOf_touched htouches.table
  have hcanonical : s'.table.canonical path = s.table.canonical path :=
    congrArg (· ++ path.getLast?.toList) hmodules
  have hmember : ¬ v.IsMember := by
    rintro (⟨_, _, hk'⟩ | ⟨_, _, _, hk'⟩) <;> · rw [hk] at hk'; cases hk'
  obtain ⟨pre, modules, B, name, -, hgoes, hname, -, hpath⟩ := Table.ends_of_resolveBy hv hmember
  rw [hcanonical]
  refine (congrArg s.table.resolve hpath).trans ?_
  exact (hgoes.straight.resolveBy (by simp)).trans (by rw [Table.resolveBy_single, hname])

theorem Reached.sound (hs : Reached cfg schedule tree s) : s.table.Sound := by
  obtain ⟨l, ns, hv, m, hm, rfl⟩ := hs
  exact (bodyMoments_within hereditary_true (fun _ _ => trivial) hv.anchored.sound m hm).2

variable (cfg schedule tree) in
/-- In a state that is reached, a constructor is accepted and made into `n'`, with `k` levels left
below it. -/
structure AcceptsArm (k : Nat) (s : State) (n : Node) (c : Chain) (owner : Ident) (payload : Payload)
    (ordinal : Int) (n' : Node) (type : Ty) : Prop extends NamesArm s n c owner payload ordinal where
  reached : Reached cfg schedule tree s
  accepted : ∃ expected, (exprAt cfg (k + 1) n expected s).1 = (n', some type)

variable (cfg) in
/-- The node `n'` is a value of the variant `v`, which a path without its last segment leads to. The
last segment is one of the arms, numbered by its place among them, and what the arm carries is what
is given for it. -/
structure ArmValue (k : Nat) (s : State) (c : Chain) (v : SymbolEntry) (d : VariantBody)
    (m : ArmMember) (n' : Node) (type : Ty) : Prop where
  variant : s.table.resolve c.path.dropLast = some v
  kind : v.kind = .variantDef d
  arm : d.arms.get? (c.path.getLastD .missing) = some m
  owner : m.owner = v.name
  place : ∃ i : Nat, d.order[i]? = some (c.path.getLastD .missing) ∧ m.ordinal = i
  encoded : ∃ path carried, type = .custom path ∧ s.table.resolve path = some v ∧
    Supplied (exprAt cfg k) c.path m.payload c.tail carried ∧
    n'.Tagged path v.name (c.path.getLastD .missing) m.ordinal carried

theorem ArmValue.tag? {k : Nat} {v d} {m : ArmMember} {n' : Node} {type}
    (h : ArmValue cfg k s c v d m n' type) : n'.tag? = some m.ordinal := by
  obtain ⟨_, _, -, -, -, htagged⟩ := h.encoded
  exact htagged.tag?

theorem AcceptsArm.value {owner payload} {ordinal : Int} {k : Nat} {type n'}
    (h : AcceptsArm cfg schedule tree k s n c owner payload ordinal n' type) :
    ∃ v d loc, ArmValue cfg k s c v d ⟨owner, payload, ordinal, loc⟩ n' type := by
  obtain ⟨e, he, hk⟩ := h.arm
  obtain ⟨expected, haccepted⟩ := h.accepted
  obtain ⟨v, d, hv, hd, harm⟩ := Symbols.variant_of_arm h.reached.sound he hk
  obtain ⟨i, hi, howner, hordinal⟩ := ((h.reached.lawful.resolve hv).arms d hd).place harm
  dsimp only at howner
  subst howner
  have hreturns := construct_returns (exprAt cfg k) n c v.name payload ordinal s
  rw [← h.exprAt k expected, haccepted] at hreturns
  obtain ⟨rfl, carried, hsupplied, htagged⟩ := hreturns type rfl
  have hnamed := canonical_of_touches (exprAt_touches cfg (k + 1) n expected s) hv hd
  exact ⟨v, d, e.loc, hv, hd, harm, rfl, ⟨i, hi, hordinal⟩, _, carried, rfl, hnamed, hsupplied,
    htagged⟩

/-- The encoding of variants is coherent and can be read back. In every table that is reached, and in
the one that is given in the end, the arms of each variant are numbered in order. Every constructor
that is accepted is made into a literal of its variant, with the number of its arm and what was given
for it. So two constructors of one variant have the same number just if they name the same arm. -/
theorem constructors_decodable (cfg : Config) (schedule : Schedule) (tree : Node) :
    (∀ s, Reached cfg schedule tree s → s.table.Numbered) ∧
    (tree.analyzeBy schedule cfg).table.Numbered ∧
    (∀ {k s n c owner payload ordinal n' type},
      AcceptsArm cfg schedule tree k s n c owner payload ordinal n' type →
      ∃ v d loc, ArmValue cfg k s c v d ⟨owner, payload, ordinal, loc⟩ n' type) ∧
    ∀ {k₁ k₂ s₁ s₂ n₁ n₂ c₁ c₂ owner₁ owner₂ payload₁ payload₂ ordinal₁ ordinal₂ n₁' n₂' type₁ type₂
        v₁ v₂ d},
      AcceptsArm cfg schedule tree k₁ s₁ n₁ c₁ owner₁ payload₁ ordinal₁ n₁' type₁ →
      AcceptsArm cfg schedule tree k₂ s₂ n₂ c₂ owner₂ payload₂ ordinal₂ n₂' type₂ →
      s₁.table.resolve c₁.path.dropLast = some v₁ → v₁.kind = .variantDef d →
      s₂.table.resolve c₂.path.dropLast = some v₂ → v₂.kind = .variantDef d →
      (n₁'.tag? = n₂'.tag? ↔ c₁.path.getLastD .missing = c₂.path.getLastD .missing) := by
  refine ⟨fun s hs => hs.lawful.numbered, ?_, fun h => h.value, ?_⟩
  · have hlawful : (program cfg schedule tree {}).2.table.Lawful :=
      (program_relates cfg schedule lawful_kept lawful_init (trivial_rewriting _) tree {}
        lawful_init).1
    exact hlawful.numbered
  · intro k₁ k₂ s₁ s₂ n₁ n₂ c₁ c₂ _ _ _ _ _ _ n₁' n₂' _ _ v₁ v₂ d h₁ h₂ hv₁ hd₁ hv₂ hd₂
    obtain ⟨v₁', d₁', loc₁, hvalue₁⟩ := h₁.value
    obtain ⟨v₂', d₂', loc₂, hvalue₂⟩ := h₂.value
    cases hv₁.symm.trans hvalue₁.variant
    cases hv₂.symm.trans hvalue₂.variant
    cases hd₁.symm.trans hvalue₁.kind
    cases hd₂.symm.trans hvalue₂.kind
    have hnumbered := (h₁.reached.lawful.resolve hv₁).arms d hd₁
    rw [hvalue₁.tag?, hvalue₂.tag?, Option.some_inj]
    exact hnumbered.ordinal_eq_iff hvalue₁.arm hvalue₂.arm

/-- An arm that is declared again takes no number, and the ones behind it are told apart. -/
theorem constructors_decodable_repeatedArm :
    let name : String → Node := fun x => .leaf { kind := .ident, loc := {}, name := .name x }
    let arm : String → List Ty → Arm := fun x types =>
      ⟨.name x, if types.isEmpty then .common else .tuple, types, [], {}⟩
    let variant : Node := .leaf
      { kind := .variantDef, loc := {}, name := .name "V",
        arms := [arm "A" [], arm "A" [.basic .i32], arm "B" [.basic .i32]] }
    let built : Node := .ofChildren { kind := .call, loc := {}, name := .name "B" }
      [.leaf { kind := .int, loc := {}, integer := 7 }]
    let plain : Node := .ofChildren { kind := .path, loc := {} } [name "V", name "A"]
    let paired : Node := .ofChildren { kind := .path, loc := {} } [name "V", built]
    let tree : Node := .ofChildren { kind := .program, loc := {} } [variant, plain, paired]
    let cfg : Config := { maxDepth := 3 }
    ∃ s a b type, Reached cfg .written tree s ∧
      AcceptsArm cfg .written tree 2 s plain ⟨[.name "V", .name "A"], none⟩ (.name "V") .common 0 a
        type ∧
      AcceptsArm cfg .written tree 2 s paired ⟨[.name "V", .name "B"], some built⟩ (.name "V")
        (.tuple [.basic .i32]) 1 b type ∧
      a.tag? ≠ b.tag? := by
  intro name arm variant built plain paired tree cfg
  have hreached : Reached cfg .written tree (stmtAt cfg .written 3 none variant {}).2 :=
    ⟨3, [variant, plain, paired], .program rfl,
      ⟨3, .stmt none plain (stmtAt cfg .written 3 none variant {}).2⟩,
      List.mem_flatMap.2 ⟨_, .tail _ (.head _), .head _⟩, rfl⟩
  have hplain : AcceptsArm cfg .written tree 2 (stmtAt cfg .written 3 none variant {}).2 plain
      ⟨[.name "V", .name "A"], none⟩ (.name "V") .common 0 _ _ :=
    ⟨⟨rfl, nofun, rfl, _, rfl, rfl⟩, hreached, .unknown, rfl⟩
  have hpaired : AcceptsArm cfg .written tree 2 (stmtAt cfg .written 3 none variant {}).2 paired
      ⟨[.name "V", .name "B"], some built⟩ (.name "V") (.tuple [.basic .i32]) 1 _ _ :=
    ⟨⟨rfl, nofun, rfl, _, rfl, rfl⟩, hreached, .unknown, rfl⟩
  obtain ⟨-, -, -, htags⟩ := constructors_decodable cfg .written tree
  refine ⟨_, _, _, _, hreached, hplain, hpaired, fun htag => ?_⟩
  have hsame := (htags hplain hpaired rfl rfl rfl rfl).1 htag
  exact absurd hsame (by decide)

end Analysis

end TreeSema
