import TreeSema.Proofs.Rewrite.Basic
import TreeSema.Proofs.RoundTrip.Program
import TreeSema.Proofs.RoundTrip.Source

/-!
# Trees that are written like formed ones

Analysis writes names into a tree that mean something else when they are read: the type `i32` may be
the path of an enum called so, and the identifier `true` a segment of a path. Such a tree is not
read as it was written, but it is written like a tree that is, with the basic type and with the
truth value. So its text is read, and what is read has the same text.

* `Node.Legible`: the tree is written like one that is built by the rules.
* `Node.Legible.read_render`: a legible program is read, and what is read has the same text.
* `StaysLegible.keep`: a node is legible if what is made of the nodes below it is.
* `legible_number`, `legible_literal`, `legible_encodeArm`, `legible_typedCall`: so are the nodes
  that analysis writes.
-/
namespace TreeSema

open Text (fits64 isDigit)

/-! ## Names -/

theorem IsSymbol.ne_empty {s : String} (h : IsSymbol s) : s ≠ "" := by
  rintro rfl
  exact absurd h (by decide)

theorem symbolRest_of_continues {cs : List Char} (h : ∀ c ∈ cs, continuesSymbol c = true) :
    symbolRest cs = cs := by
  fun_induction symbolRest cs with
  | case1 cs ih => exact absurd (h ':' (by simp)) (by decide)
  | case2 c cs _ _ ih => rw [ih fun c hc => h c (.tail _ hc)]
  | case3 c cs _ hc => exact absurd (h c (by simp)) hc
  | case4 => rfl

/-- Text that goes on with what can be inside a symbol, but with no digit, is one symbol. -/
theorem IsSymbol.append {s s' : String} (hs : IsSymbol s) (hrest : symbolRest s'.toList = s'.toList)
    (hdigit : s'.toList.head?.any isDigit = false) : IsSymbol (s ++ s') := by
  obtain ⟨c, cs, htext, hstart, hnum, hcs⟩ := isSymbol_iff.1 hs
  refine isSymbol_iff.2 ⟨c, cs ++ s'.toList, by simp [htext], hstart, ?_, ?_⟩
  · rw [startsNumber_append hdigit, hnum]
  · rw [symbolRest_append hcs, hrest]

theorem isSegment_of_colon_not_mem {s : String} (hs : IsSymbol s) (hcolon : ':' ∉ s.toList) :
    IsSegment s := by
  refine ⟨hs, ?_⟩
  rw [segments, splitSegments_of_not_mem hcolon]
  simp

theorem is_payloadStruct {owner arm : Ident} (howner : owner.Is IsSegment)
    (harm : arm.Is IsSegment) : (payloadStruct owner arm).Is IsSegment := by
  obtain ⟨s, rfl, hs⟩ := howner
  obtain ⟨s', rfl, hs'⟩ := harm
  refine ⟨s ++ "__" ++ s', rfl, ?_⟩
  have hmiddle : symbolRest ("__" ++ s').toList = ("__" ++ s').toList := by
    rw [String.toList_append, symbolRest_append (by decide), hs'.symbol.symbolRest_self]
  rw [String.append_assoc]
  refine isSegment_of_colon_not_mem (hs.symbol.append hmiddle (by simp; decide)) ?_
  simp [hs.colon_not_mem, hs'.colon_not_mem]

theorem is_componentName (i : Nat) : (componentName i).Is IsSymbol := by
  refine ⟨"_" ++ toString i, rfl, isSymbol_iff.2 ⟨'_', Nat.toDigits 10 i, ?_, by decide, ?_, ?_⟩⟩
  · simp
  · rfl
  · refine symbolRest_of_continues fun c hc => ?_
    simp [continuesSymbol, isDigit_of_ascii (isDigit_of_mem_toDigits hc)]

/-- The texts of identifiers that all are names. -/
theorem exists_names {P : String → Prop} : ∀ {path : List Ident}, (∀ x ∈ path, x.Is P) →
    ∃ names : List String, path = names.map .name ∧ ∀ s ∈ names, P s
  | [], _ => ⟨[], rfl, List.forall_mem_nil _⟩
  | x :: path, h => by
    obtain ⟨⟨s, rfl, hs⟩, hpath⟩ := List.forall_mem_cons.1 h
    obtain ⟨names, rfl, hnames⟩ := exists_names hpath
    exact ⟨s :: names, rfl, List.forall_mem_cons.2 ⟨hs, hnames⟩⟩

/-! ## Types -/

theorem Ty.qualifyAll_eq_map (modules : List Ident) (ts : List Ty) :
    qualifyAll modules ts = ts.map (qualify modules) := by
  induction ts with
  | nil => rfl
  | cons t ts ih => rw [qualifyAll, ih, List.map_cons]

theorem Ty.qualify_eq_unknown {modules} {t : Ty} (h : t.qualify modules = .unknown) :
    t = .unknown := by
  cases t <;> first | rfl | cases h

/-- A path goes on behind segments. -/
theorem IsPath.behind {names path : List String} (hnames : ∀ s ∈ names, IsSegment s)
    (h : IsPath path) : IsPath (names ++ path) := by
  induction names with
  | nil => exact h
  | cons s names ih =>
    obtain ⟨hs, hnames⟩ := List.forall_mem_cons.1 hnames
    exact .cons hs (ih hnames)

/-- A type can be written from outside the modules that it is defined in. -/
theorem Ty.Readable.qualify {modules} (hmodules : ∀ x ∈ modules, x.Is IsSegment) {t : Ty}
    (h : t.Readable) : (t.qualify modules).Readable := by
  obtain ⟨names, rfl, hnames⟩ := exists_names hmodules
  induction h with
  | unknown => exact .unknown
  | basic named => exact .basic named
  | unit => exact .unit
  | ref m _ ih => exact .ref m ih
  | ptr _ ih => exact .ptr ih
  | array size fits _ ih => exact .array size fits ih
  | tuple nonempty known _ ih =>
    rw [Ty.qualify, qualifyAll_eq_map]
    refine .tuple (by simpa using nonempty) ?_ (by simpa using ih)
    simpa using fun t ht hunknown => known t ht (qualify_eq_unknown hunknown)
  | template isName known _ ih =>
    rw [Ty.qualify, qualifyAll_eq_map]
    refine .template isName ?_ (by simpa using ih)
    simpa using fun t ht hunknown => known t ht (qualify_eq_unknown hunknown)
  | custom isPath segments free =>
    rw [Ty.qualify, ← List.map_append]
    refine .custom (isPath.behind hnames) (List.forall_mem_append.2 ⟨?_, segments⟩) fun s hs => ?_
    · exact fun s hs => (hnames s hs).symbol.ne_empty
    · cases names with
      | nil => exact free s hs
      | cons s' names => simp [isPath.ne_nil] at hs

/-- The path of a definition is written like a type that can be read. -/
theorem exists_readable {path} (hne : path ≠ []) (h : ∀ x ∈ path, x.Is IsSegment) :
    ∃ t : Ty, t.Readable ∧ (Ty.custom path).toDatum = t.toDatum ∧
      (t = .unknown → path = [.name "_"]) := by
  obtain ⟨names, rfl, hnames⟩ := exists_names h
  by_cases hfree : ∀ s, names = [s] → s ≠ "_" ∧ Basic.ofName? s = none
  · have hpath := isPath_of_segments (by simpa using hne) hnames
    exact ⟨_, .custom hpath (fun s hs => (hnames s hs).symbol.ne_empty) hfree, rfl, nofun⟩
  · push Not at hfree
    obtain ⟨s, rfl, hs⟩ := hfree
    by_cases hunknown : s = "_"
    · subst hunknown
      exact ⟨.unknown, .unknown, rfl, fun _ => rfl⟩
    · obtain ⟨b, hb⟩ := Option.ne_none_iff_exists'.1 (hs hunknown)
      obtain ⟨hspelled, hnamed⟩ := TreeReader.toString_of_ofName? hb
      refine ⟨.basic b, .basic hnamed, ?_, nofun⟩
      rw [Ty.toDatum, Ty.toDatum, TreeReader.joinPath_names, hspelled, String.intercalate_singleton]

/-! ## What is written without places -/

namespace Node

theorem datumOf_unplaced (h : Head) (cs : List Datum) (fs : List (Component Datum))
    (b : Option Datum) :
    datumOf h.unplaced cs (fs.map fun f => ⟨f.name, f.type, f.value, {}⟩) b =
      datumOf h cs fs b := by
  have hvalues : h.unplaced.values.map EnumItem.toDatum = h.values.map EnumItem.toDatum :=
    List.map_map.trans (List.map_congr_left fun _ _ => rfl)
  have hparams : h.unplaced.params.map Param.toDatum = h.params.map Param.toDatum :=
    List.map_map.trans (List.map_congr_left fun _ _ => rfl)
  have harms : h.unplaced.arms.map Arm.toDatum = h.arms.map Arm.toDatum := by
    simp [Head.unplaced, Arm.unplaced, FieldDecl.unplaced, Arm.toDatum, Function.comp_def]
  unfold datumOf
  simp only [hvalues, hparams, harms, List.map_map, Function.comp_def]
  rfl

mutual

/-- Places are not written. -/
theorem toDatum_unplaced (n : Node) : n.unplaced.toDatum = n.toDatum := by
  cases n with
  | absent => rfl
  | mk h cs fs b =>
    rw [unplaced, toDatum, toDatum, toData_unplaced cs, toComponents_unplaced fs, toBody_unplaced b,
      datumOf_unplaced]

theorem toData_unplaced (ns : List Node) : toData (unplacedAll ns) = toData ns := by
  cases ns with
  | nil => rfl
  | cons n ns => rw [unplacedAll, toData, toData, toDatum_unplaced n, toData_unplaced ns]

theorem toComponents_unplaced : ∀ fs : List (Component Node), toComponents (unplacedFields fs) =
    (toComponents fs).map fun f => ⟨f.name, f.type, f.value, {}⟩
  | [] => rfl
  | ⟨name, type, value, loc⟩ :: fs => by
    rw [unplacedFields, toComponents, toComponents, toDatum_unplaced value,
      toComponents_unplaced fs, List.map_cons]

theorem toBody_unplaced (n : Node) : n.unplaced.toBody = n.toBody := by
  cases n with
  | absent => rfl
  | mk h cs fs b =>
    rw [unplaced, toBody, toBody, toData_unplaced cs, toComponents_unplaced fs, toBody_unplaced b,
      datumOf_unplaced]

end

theorem render_congr {n n' : Node} (hk : n.kind? = some .program) (hk' : n'.kind? = some .program)
    (h : n.toDatum = n'.toDatum) : n.render = n'.render := by
  cases n with
  | absent => cases hk
  | mk g cs fs b =>
    cases n' with
    | absent => cases hk'
    | mk g' cs' fs' b' =>
      have hg : g.kind = .program := Option.some.inj hk
      have hg' : g'.kind = .program := Option.some.inj hk'
      rw [toDatum_program hg, toDatum_program hg'] at h
      have hparts : cs.map toDatum = cs'.map toDatum := by simpa [Datum.ofItems] using h
      rw [render_program hg, render_program hg', hparts]

/-- The tree is written like one that is built by the rules, and a block like a block. -/
def Legible (n : Node) : Prop :=
  ∃ n₀ : Node, n₀.Formed IsSymbol IsIdentifier IsText (fun _ => True) ∧ n.toDatum = n₀.toDatum ∧
    (n.kind? = some .block → n₀.kind? = some .block)

/-- A legible program is read, and what is read has the same text. -/
theorem Legible.read_render {n : Node} (h : n.Legible) (hk : n.kind? = some .program)
    (unit : String) : ∃ n', read n.render unit = .ok n' ∧ n'.render = n.render := by
  obtain ⟨n₀, hformed, hsame, -⟩ := h
  obtain ⟨n', hread, hplaces⟩ := read_of_toDatum hformed hk hsame unit
  refine ⟨n', hread, render_congr (kind?_of_read hread) hk ?_⟩
  rw [← toDatum_unplaced n', hplaces, toDatum_unplaced, hsame]

/-! ## Nodes that analysis writes -/

theorem toDatum_children {h} {cs cs₀ : List Node} (hsame : cs.map toDatum = cs₀.map toDatum) :
    (ofChildren h cs).toDatum = (ofChildren h cs₀).toDatum := by
  rw [toDatum_ofChildren, toDatum_ofChildren, hsame]

/-- Only declared fields are written with their types. -/
theorem toDatum_components {h : Head} {fs fs₀ : List (Component Node)}
    (hstruct : h.kind ≠ .structDef) (hunion : h.kind ≠ .unionDef)
    (hsame : fs.map (fun f => (f.name.text, f.value.toDatum)) =
      fs₀.map fun f => (f.name.text, f.value.toDatum)) :
    (ofFields h fs).toDatum = (ofFields h fs₀).toDatum := by
  rw [toDatum_ofFields, toDatum_ofFields]
  unfold datumOf
  simp only [List.map_map, Function.comp_def, hsame]
  split <;> first | rfl | contradiction

/-- The tree is built by the rules, with operators, identifiers and strings that are read. -/
abbrev Readable (n : Node) : Prop := n.Formed IsSymbol IsIdentifier IsText fun _ => True

/-- Legible nodes are written like formed ones. -/
theorem exists_formed : ∀ {cs : List Node}, (∀ c ∈ cs, c.Legible) →
    ∃ cs₀ : List Node, (∀ c ∈ cs₀, c.Readable) ∧ cs.map toDatum = cs₀.map toDatum
  | [], _ => ⟨[], List.forall_mem_nil _, rfl⟩
  | c :: cs, h => by
    obtain ⟨⟨c₀, hc₀, hsame, -⟩, hcs⟩ := List.forall_mem_cons.1 h
    obtain ⟨cs₀, hcs₀, hall⟩ := exists_formed hcs
    exact ⟨c₀ :: cs₀, List.forall_mem_cons.2 ⟨hc₀, hcs₀⟩, by rw [List.map_cons, hsame, hall]; rfl⟩

/-- Components with legible values are written like keyed ones. -/
theorem exists_keyed : ∀ {fs : List (Component Node)},
    (∀ f ∈ fs, f.name.Is IsSymbol ∧ f.value.Legible) →
    ∃ fs₀ : List (Component Node), (∀ f ∈ fs₀, f.Keyed) ∧ (∀ f ∈ fs₀, f.value.Readable) ∧
      fs.map (fun f => (f.name.text, f.value.toDatum)) =
        fs₀.map fun f => (f.name.text, f.value.toDatum)
  | [], _ => ⟨[], List.forall_mem_nil _, List.forall_mem_nil _, rfl⟩
  | f :: fs, h => by
    obtain ⟨⟨hname, v₀, hv₀, hsame, -⟩, hfs⟩ := List.forall_mem_cons.1 h
    obtain ⟨fs₀, hkeyed, hformed, hall⟩ := exists_keyed hfs
    refine ⟨⟨f.name, .unknown, v₀, f.loc⟩ :: fs₀, List.forall_mem_cons.2 ⟨⟨hname, rfl⟩, hkeyed⟩,
      List.forall_mem_cons.2 ⟨hv₀, hformed⟩, ?_⟩
    rw [List.map_cons, hsame, hall]
    rfl

section Written

variable {loc : Location} {path : List Ident} {built : List (Component Node)}

theorem legible_number {integer : Int} (hfits : fits64 integer = true) (hne : path ≠ [])
    (hpath : ∀ x ∈ path, x.Is IsSegment) (hknown : path ≠ [.name "_"]) :
    (leaf { kind := .int, loc, integer, type := .custom path }).Legible := by
  obtain ⟨t, ht, hsame, hunknown⟩ := exists_readable hne hpath
  refine ⟨leaf { kind := .int, loc, integer, type := t }, .int hfits ht, ?_, nofun⟩
  have htype : t.isUnknown = false := by
    cases t with
    | unknown => exact absurd (hunknown rfl) hknown
    | _ => rfl
  simp only [leaf, toDatum, toData, toComponents, toBody, datumOf_int, htype, ← hsame]
  rfl

theorem legible_literal {type t : Ty} (ht : t.Readable) (htype : type.toDatum = t.toDatum)
    (hbuilt : ∀ f ∈ built, f.name.Is IsSymbol ∧ f.value.Legible) :
    (ofFields { kind := .literal, loc, type } built).Legible := by
  obtain ⟨fs₀, hkeyed, hformed, hsame⟩ := exists_keyed hbuilt
  refine ⟨ofFields { kind := .literal, loc, type := t } fs₀, .literal ht hkeyed hformed, ?_, nofun⟩
  rw [toDatum_components (by simp) (by simp) hsame, toDatum_ofFields, toDatum_ofFields]
  simp only [datumOf, htype]

theorem legible_encodeArm {owner} {arm : Ident} {ordinal : Int} (howner : owner ≠ [])
    (hsegments : ∀ x ∈ owner, x.Is IsSegment) (hne : path ≠ []) (hpath : ∀ x ∈ path, x.Is IsSegment)
    (harm : arm.Is IsSymbol) (hfits : fits64 ordinal = true)
    (hbuilt : ∀ f ∈ built, f.name.Is IsSymbol ∧ f.value.Legible) :
    (Analysis.encodeArm loc owner path arm ordinal built).Legible := by
  obtain ⟨t, ht, htype, -⟩ := exists_readable howner hsegments
  obtain ⟨t', ht', htype', -⟩ := exists_readable hne hpath
  have hdiscriminant : (leaf { kind := .int, loc, integer := ordinal }).Legible :=
    ⟨_, .int hfits .unknown, rfl, id⟩
  have hinner : (ofFields { kind := .literal, loc, type := .custom path } built).Legible :=
    legible_literal ht' htype' hbuilt
  refine legible_literal ht htype ?_
  simp only [List.forall_mem_cons]
  refine ⟨⟨⟨_, rfl, by decide⟩, hdiscriminant⟩, ⟨⟨_, rfl, by decide⟩, ?_⟩, List.forall_mem_nil _⟩
  exact legible_literal .unknown rfl (by simpa using ⟨harm, hinner⟩)

theorem legible_typedCall {type : Ty} {args} (htype : type.Readable) (hne : path ≠ [])
    (hpath : ∀ x ∈ path, x.Is IsSegment) (hargs : ∀ a ∈ args, a.Legible) :
    (ofChildren { kind := .typedCall, loc, type, path } args).Legible := by
  obtain ⟨names, rfl, hnames⟩ := exists_names hpath
  obtain ⟨args₀, hformed, hsame⟩ := exists_formed hargs
  exact ⟨_, .typedCall htype (isPath_of_segments (by simpa using hne) hnames) hformed,
    toDatum_children hsame, id⟩

end Written

end Node

/-! ## Parts of formed trees -/

namespace Node.Formed

variable {op word text : String → Prop} {size : Nat → Prop} {h : Head} {cs : List Node}
  {fs : List (Component Node)} {b : Node}

theorem children {n : Node} (hn : n.Formed op word text size) :
    ∀ c ∈ n.children, c.Formed op word text size := by
  cases hn with
  | operands _ _ hcs | moduleDef _ hcs | varDef _ _ _ _ _ hcs | call _ hcs | typedCall _ _ hcs =>
    exact hcs
  | binary _ _ ha hc | access _ ha hc => simpa [Node.children, ofChildren] using ⟨ha, hc⟩
  | unary _ ha | ref ha | cast _ ha => simpa [Node.children, ofChildren] using ha
  | _ => exact List.forall_mem_nil _

theorem body (hn : (mk h cs fs b).Formed op word text size) (hb : b ≠ .absent) :
    b.Formed op word text size := by
  cases hn with
  | funcDef _ _ _ _ formed => exact formed hb
  | _ => exact absurd rfl hb

/-- What a call, a literal or an assignment is given comes with keys, if it is no operand. -/
theorem given (hn : (mk h cs fs b).Formed op word text size)
    (hk : h.kind ∈ [.call, .lit, .assign]) :
    ∀ f ∈ fs, f.name.Is IsSymbol ∧ f.value.Formed op word text size := by
  cases hn with
  | namedCall _ keys values | lit _ keys values | literal _ keys values
  | namedTypedCall _ _ keys values => exact fun f hf => ⟨(keys f hf).1, values f hf⟩
  | record isKind =>
    simp only [List.mem_cons, List.not_mem_nil, or_false] at hk
    rcases hk with rfl | rfl | rfl <;> simp at isKind
  | _ => exact List.forall_mem_nil _

/-- A name along a chain is a segment. -/
theorem segment (hn : (mk h cs fs b).Formed op IsSegment text size)
    (hk : h.kind ∈ [.ident, .call, .lit]) : h.name.Is IsSegment := by
  cases hn with
  | ident isWord => exact ⟨_, rfl, isWord⟩
  | call isName | namedCall isName | lit isName => exact ⟨_, rfl, isName.toIsSegment⟩
  | operands isKind | record isKind | varDef isKind | binary isKind | access isKind =>
    simp only [List.mem_cons, List.not_mem_nil, or_false] at hk
    rcases hk with rfl | rfl | rfl <;> simp [Kind.onlyOperands] at isKind
  | _ => simp at hk

/-- What analysis keeps of a declaration. -/
theorem declaration (hn : (mk h cs fs b).Formed op word text size) :
    (h.kind = .enumDef ∨ h.kind = .variantDef → h.name.Is IsName) ∧
      (h.kind = .funcDef → h.type.Readable) := by
  cases hn with
  | enumDef isName | variantDef isName => exact ⟨fun _ => ⟨_, rfl, isName⟩, nofun⟩
  | funcDef _ _ result => exact ⟨by simp, fun _ => result⟩
  | operands isKind | record isKind | varDef isKind | binary isKind | access isKind =>
    refine ⟨?_, ?_⟩
    · rintro (rfl | rfl) <;> simp [Kind.onlyOperands] at isKind
    · rintro rfl
      simp [Kind.onlyOperands] at isKind
  | _ => simp

end Node.Formed

/-- The names along a chain are segments, and what ends the chain is formed and given formed
values. -/
structure Chain.Formed (op text : String → Prop) (size : Nat → Prop) (c : Chain) : Prop where
  segments : ∀ x ∈ c.path, x.Is IsSegment
  given : ∀ t, c.tail = some t → t.Formed op IsSegment text size ∧
    ∀ f ∈ t.fields, f.name.Is IsSymbol ∧ f.value.Formed op IsSegment text size

section Chains

variable {op text : String → Prop} {size : Nat → Prop} {c : Chain}

theorem Chain.Extends.formed {path} {right : Node} (h : Extends path right c)
    (hpath : ∀ x ∈ path, x.Is IsSegment) (hn : right.Formed op IsSegment text size) :
    c.Formed op text size := by
  have hextended : ∀ {x : Ident}, x.Is IsSegment → ∀ y ∈ path ++ [x], y.Is IsSegment := fun hx =>
    List.forall_mem_append.2 ⟨hpath, by simpa using hx⟩
  cases h with
  | name hk => exact ⟨hextended (hn.segment (by simp [hk])), nofun⟩
  | built hk =>
    refine ⟨hextended (hn.segment (by rcases hk with hk | hk <;> simp [hk])), ?_⟩
    rintro _ ⟨⟩
    exact ⟨hn, hn.given (by rcases hk with hk | hk <;> simp [hk])⟩
  | assigned hk htarget =>
    have hoperand := hn.children _ List.mem_cons_self
    refine ⟨hextended (hoperand.segment (by simp [htarget])), ?_⟩
    rintro _ ⟨⟩
    exact ⟨hn, hn.given (by simp [hk])⟩

/-- A chain from a text is formed. -/
theorem Node.Writes.formed {n : Node} (h : n.Writes c) (hn : n.Formed op IsSegment text size) :
    c.Formed op text size := by
  induction h with
  | name hk => exact ⟨by simpa using hn.segment (by simp [hk]), nofun⟩
  | built hk =>
    refine ⟨by simpa using hn.segment (by rcases hk with hk | hk <;> simp [hk]), ?_⟩
    rintro _ ⟨⟩
    exact ⟨hn, hn.given (by rcases hk with hk | hk <;> simp [hk])⟩
  | access _ _ hright ih =>
    have hoperands := hn.children
    simp only [Node.children, List.forall_mem_cons] at hoperands
    exact hright.formed (ih hoperands.1).segments hoperands.2.1

end Chains

/-! ## What is made of trees from a text -/

/-- What is made of a node is legible if the node comes from a text, and only chains change their
kinds. -/
structure StaysLegible (size : Nat → Prop) (n n' : Node) : Prop where
  legible : n.Formed IsSymbol IsSegment IsText size → n'.Legible
  kind : n.kind?.any Kind.isChain = false → n'.kind? = n.kind?

namespace StaysLegible

open Node

variable {size : Nat → Prop}

theorem eq_absent {n'} (h : StaysLegible size .absent n') : n' = .absent := by
  have hkind := h.kind rfl
  cases n' with
  | absent => rfl
  | mk => cases hkind

/-- Declared fields have no values. -/
theorem declared {fs fs'} (h : List.Forall₂ (Component.Lift (StaysLegible size)) fs fs')
    (hfs : ∀ f ∈ fs, f.Declared) : fs' = fs := by
  induction h with
  | nil => rfl
  | cons hff _ ih =>
    obtain ⟨hf, hfs⟩ := List.forall_mem_cons.1 hfs
    obtain rfl := ih hfs
    cases hff with
    | mk hvalue =>
      obtain ⟨-, -, rfl⟩ := hf
      rw [hvalue.eq_absent]

/-- Identifiers called `true` and `false` are written like truth values. -/
theorem ident {loc : Location} {name : String} (h : IsSegment name) :
    (leaf { kind := .ident, loc, name := .name name }).Legible := by
  by_cases htrue : name = "true"
  · subst htrue
    exact ⟨leaf { kind := .bool, loc, truth := true }, .bool, rfl, nofun⟩
  · by_cases hfalse : name = "false"
    · subst hfalse
      exact ⟨leaf { kind := .bool, loc, truth := false }, .bool, rfl, nofun⟩
    · exact ⟨_, .ident ⟨h, htrue, hfalse⟩, rfl, id⟩

/-- A function with another block. -/
theorem function {loc : Location} {name : String} {isUnsafe variadic : Bool} {params} {type : Ty}
    {body body' : Node} (isName : IsName name) (items : ∀ p ∈ params, p.Formed)
    (result : type.Readable) (isBlock : body = .absent ∨ body.kind? = some .block)
    (formed : body ≠ .absent → body.Formed IsSymbol IsSegment IsText size)
    (hbody : StaysLegible size body body') :
    (Node.mk { kind := .funcDef, loc, name := .name name, isUnsafe, variadic, params, type } [] []
      body').Legible := by
  rcases isBlock with rfl | hblock
  · obtain rfl := hbody.eq_absent
    exact ⟨_, .funcDef isName items result (.inl rfl) (fun h => absurd rfl h), rfl, id⟩
  · have hkind : body'.kind? = some .block := (hbody.kind (by rw [hblock]; rfl)).trans hblock
    have hpresent : ∀ {n : Node}, n.kind? = some .block → n ≠ .absent := by
      rintro n hn rfl
      cases hn
    obtain ⟨body₀, hformed, hsame, hkept⟩ := hbody.legible (formed (hpresent hblock))
    refine ⟨_, .funcDef isName items result (.inr (hkept hkind)) fun _ => hformed, ?_, id⟩
    rw [toDatum, toDatum, toBody_eq (hpresent hkind), toBody_eq (hpresent (hkept hkind)), hsame]

variable {h : Head} {cs cs' : List Node} {fs fs' : List (Component Node)} {b b' : Node}

section Only

variable (hb : StaysLegible size .absent b')

include hb

/-- Nothing but operands stands in the node, and what is made of them is written like formed
nodes. -/
theorem children (hcs : List.Forall₂ (StaysLegible size) cs cs')
    (hfs : List.Forall₂ (Component.Lift (StaysLegible size)) [] fs')
    (hformed : ∀ c ∈ cs, c.Formed IsSymbol IsSegment IsText size)
    (hn : ∀ cs₀ : List Node, cs₀.length = cs.length → (∀ c ∈ cs₀, c.Readable) →
      (ofChildren h cs₀).Readable) :
    (Node.mk h cs' fs' b').Legible := by
  cases hfs
  rw [hb.eq_absent]
  have hlegible : ∀ c' ∈ cs', c'.Legible := by
    intro c' hc'
    obtain ⟨c, hc, hcc⟩ := exists_of_forall₂_right hcs hc'
    exact hcc.legible (hformed c hc)
  obtain ⟨cs₀, hcs₀, hsame⟩ := exists_formed hlegible
  have hlength : cs'.length = cs₀.length := by simpa using congrArg List.length hsame
  exact ⟨_, hn cs₀ (hlength.symm.trans hcs.length_eq.symm) hcs₀, toDatum_children hsame, id⟩

/-- Nothing but named values stands in the node, and what is made of them is written like keyed
ones. -/
theorem fields (hcs : List.Forall₂ (StaysLegible size) [] cs')
    (hfs : List.Forall₂ (Component.Lift (StaysLegible size)) fs fs')
    (hstruct : h.kind ≠ .structDef) (hunion : h.kind ≠ .unionDef) (hkeys : ∀ f ∈ fs, f.Keyed)
    (hvalues : ∀ f ∈ fs, f.value.Formed IsSymbol IsSegment IsText size)
    (hn : ∀ fs₀ : List (Component Node), (∀ f ∈ fs₀, f.Keyed) → (∀ f ∈ fs₀, f.value.Readable) →
      (ofFields h fs₀).Readable) :
    (Node.mk h cs' fs' b').Legible := by
  cases hcs
  rw [hb.eq_absent]
  have hlegible : ∀ f' ∈ fs', f'.name.Is IsSymbol ∧ f'.value.Legible := by
    intro f' hf'
    obtain ⟨f, hf, hff⟩ := exists_of_forall₂_right hfs hf'
    cases hff with
    | mk hvalue => exact ⟨(hkeys _ hf).1, hvalue.legible (hvalues _ hf)⟩
  obtain ⟨fs₀, hkeyed, hformed, hsame⟩ := exists_keyed hlegible
  exact ⟨_, hn fs₀ hkeyed hformed, toDatum_components hstruct hunion hsame, id⟩

theorem nothing (hcs : List.Forall₂ (StaysLegible size) [] cs')
    (hfs : List.Forall₂ (Component.Lift (StaysLegible size)) [] fs') (hn : (leaf h).Readable) :
    (Node.mk h cs' fs' b').Legible := by
  refine children hb hcs hfs (List.forall_mem_nil _) fun cs₀ hlength _ => ?_
  rwa [List.length_eq_zero_iff.1 hlength]

theorem one {a : Node} (hcs : List.Forall₂ (StaysLegible size) [a] cs')
    (hfs : List.Forall₂ (Component.Lift (StaysLegible size)) [] fs')
    (ha : a.Formed IsSymbol IsSegment IsText size)
    (hn : ∀ a₀ : Node, a₀.Readable → (ofChildren h [a₀]).Readable) :
    (Node.mk h cs' fs' b').Legible := by
  refine children hb hcs hfs (by simpa using ha) fun cs₀ hlength hformed => ?_
  obtain ⟨a₀, rfl⟩ := List.length_eq_one_iff.1 hlength
  exact hn a₀ (by simpa using hformed)

theorem two {a c : Node} (hcs : List.Forall₂ (StaysLegible size) [a, c] cs')
    (hfs : List.Forall₂ (Component.Lift (StaysLegible size)) [] fs')
    (ha : a.Formed IsSymbol IsSegment IsText size) (hc : c.Formed IsSymbol IsSegment IsText size)
    (hn : ∀ a₀ c₀ : Node, a₀.Readable → c₀.Readable → (ofChildren h [a₀, c₀]).Readable) :
    (Node.mk h cs' fs' b').Legible := by
  refine children hb hcs hfs (by simpa using ⟨ha, hc⟩) fun cs₀ hlength hformed => ?_
  obtain ⟨a₀, c₀, rfl⟩ := List.length_eq_two.1 hlength
  simp only [List.forall_mem_cons] at hformed
  exact hn a₀ c₀ hformed.1 hformed.2.1

end Only

/-- A node is legible if what is made of the nodes below it is. -/
theorem keep (hcs : List.Forall₂ (StaysLegible size) cs cs')
    (hfs : List.Forall₂ (Component.Lift (StaysLegible size)) fs fs') (hb : StaysLegible size b b') :
    StaysLegible size (.mk h cs fs b) (.mk h cs' fs' b') where
  kind _ := rfl
  legible hn := by
    cases hn with
    | operands isKind count operands =>
      exact children hb hcs hfs operands fun _ hlength hformed =>
        .operands isKind (hlength ▸ count) hformed
    | moduleDef isName parts =>
      exact children hb hcs hfs parts fun _ _ hformed => .moduleDef isName hformed
    | record isKind isName fields =>
      obtain rfl := declared hfs fields
      cases hcs
      rw [hb.eq_absent]
      exact ⟨_, .record isKind isName fields, rfl, id⟩
    | enumDef isName items => exact nothing hb hcs hfs (.enumDef isName items)
    | variantDef isName _ items => exact nothing hb hcs hfs (.variantDef isName trivial items)
    | funcDef isName items result isBlock formed =>
      cases hcs
      cases hfs
      exact function isName items result isBlock formed hb
    | aliasDef isName target => exact nothing hb hcs hfs (.aliasDef isName target)
    | varDef isKind isName notMut declared count init =>
      exact children hb hcs hfs init fun _ hlength hformed =>
        .varDef isKind isName notMut declared (hlength ▸ count) hformed
    | int fits declared => exact nothing hb hcs hfs (.int fits declared)
    | float real => exact nothing hb hcs hfs (.float real)
    | str isText => exact nothing hb hcs hfs (.str isText)
    | bool => exact nothing hb hcs hfs .bool
    | ident isWord =>
      cases hcs
      cases hfs
      rw [hb.eq_absent]
      exact ident isWord
    | binary isKind isOp left right =>
      exact two hb hcs hfs left right fun _ _ => .binary isKind isOp
    | unary isOp operand => exact one hb hcs hfs operand fun _ => .unary isOp
    | ref operand => exact one hb hcs hfs operand fun _ => .ref
    | call isName args => exact children hb hcs hfs args fun _ _ => .call isName
    | namedCall isName keys args =>
      exact fields hb hcs hfs nofun nofun keys args fun _ => .namedCall isName
    | lit isName keys values =>
      exact fields hb hcs hfs nofun nofun keys values fun _ => .lit isName
    | access isKind left right => exact two hb hcs hfs left right fun _ _ => .access isKind
    | cast target operand => exact one hb hcs hfs operand fun _ => .cast target
    | literal declared keys values =>
      exact fields hb hcs hfs nofun nofun keys values fun _ => .literal declared
    | typedCall result callee args =>
      exact children hb hcs hfs args fun _ _ => .typedCall result callee
    | namedTypedCall result callee keys args =>
      exact fields hb hcs hfs nofun nofun keys args fun _ => .namedTypedCall result callee

mutual

/-- A tree from a text is legible. -/
theorem refl (n : Node) : StaysLegible size n n := by
  cases n with
  | absent => exact ⟨nofun, fun _ => rfl⟩
  | mk _ cs fs b => exact keep (refl_all cs) (refl_components fs) (refl b)

theorem refl_all (ns : List Node) : List.Forall₂ (StaysLegible size) ns ns := by
  cases ns with
  | nil => exact .nil
  | cons n ns => exact .cons (refl n) (refl_all ns)

theorem refl_components : ∀ fs : List (Component Node),
    List.Forall₂ (Component.Lift (StaysLegible size)) fs fs
  | [] => .nil
  | ⟨_, _, value, _⟩ :: fs => .cons (.mk (refl value)) (refl_components fs)

end

/-- A node with other operands. -/
theorem ofOperands (hcs : List.Forall₂ (StaysLegible size) cs cs') :
    StaysLegible size (.mk h cs fs b) (.mk h cs' fs b) :=
  keep hcs (refl_components fs) (refl b)

theorem withChildren {n : Node} (hcs : List.Forall₂ (StaysLegible size) n.children cs') :
    StaysLegible size n (n.withChildren cs') := by
  cases n with
  | absent => exact refl _
  | mk => exact ofOperands hcs

end StaysLegible

end TreeSema
