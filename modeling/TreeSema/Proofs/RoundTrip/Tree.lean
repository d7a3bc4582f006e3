import Mathlib.Tactic.FinCases
import TreeSema.Proofs.RoundTrip.Type

/-!
# Trees are read as they were written

`Node.Formed` is the grammar of trees: it has one rule for every form of node, and a node that is
formed holds what its kind calls for and nothing else. Left open is which texts may be operators,
which may stand for identifiers and what strings may hold.

The written form of a tree does not show locations, so trees are compared without them.
-/
namespace TreeSema

open Text (Pos fits64 int64? isReal)

/-! ## Trees without locations -/

def Param.unplaced (p : Param) : Param := { p with loc := {} }

def EnumItem.unplaced (v : EnumItem) : EnumItem := { v with loc := {} }

def FieldDecl.unplaced (f : FieldDecl) : FieldDecl := { f with loc := {} }

def Arm.unplaced (a : Arm) : Arm := { a with fields := a.fields.map .unplaced, loc := {} }

def Head.unplaced (h : Head) : Head :=
  { h with
    loc := {}
    params := h.params.map .unplaced
    values := h.values.map .unplaced
    arms := h.arms.map .unplaced }

namespace Node

mutual

/-- The tree without its locations. -/
def unplaced : Node → Node
  | absent => absent
  | mk h cs fs b => mk h.unplaced (unplacedAll cs) (unplacedFields fs) (unplaced b)

def unplacedAll : List Node → List Node
  | [] => []
  | n :: ns => unplaced n :: unplacedAll ns

def unplacedFields : List (Component Node) → List (Component Node)
  | [] => []
  | ⟨name, type, value, _⟩ :: fs => ⟨name, type, unplaced value, {}⟩ :: unplacedFields fs

end

end Node

/-- A component without its locations. -/
def Component.unplaced (f : Component Node) : Component Node :=
  ⟨f.name, f.type, f.value.unplaced, {}⟩

namespace Node

@[simp] theorem unplacedAll_eq_map (ns : List Node) : unplacedAll ns = ns.map unplaced := by
  induction ns with
  | nil => rfl
  | cons n ns ih => rw [unplacedAll, ih, List.map_cons]

@[simp] theorem unplacedFields_eq_map (fs : List (Component Node)) :
    unplacedFields fs = fs.map Component.unplaced := by
  induction fs with
  | nil => rfl
  | cons f fs ih =>
    obtain ⟨name, type, value, loc⟩ := f
    rw [unplacedFields, ih, List.map_cons, Component.unplaced]

@[simp] theorem unplaced_ofChildren (h : Head) (cs : List Node) :
    (ofChildren h cs).unplaced = ofChildren h.unplaced (cs.map unplaced) := by
  simp [ofChildren, unplaced]

@[simp] theorem unplaced_ofFields (h : Head) (fs : List (Component Node)) :
    (ofFields h fs).unplaced = ofFields h.unplaced (fs.map Component.unplaced) := by
  simp [ofFields, unplaced]

@[simp] theorem unplaced_leaf (h : Head) : (leaf h).unplaced = leaf h.unplaced := by
  simp [leaf, unplaced]

@[simp] theorem toData_eq_map (ns : List Node) : toData ns = ns.map toDatum := by
  induction ns with
  | nil => rfl
  | cons n ns ih => rw [toData, ih, List.map_cons]

@[simp] theorem toComponents_eq_map (fs : List (Component Node)) :
    toComponents fs = fs.map fun f => ⟨f.name, f.type, f.value.toDatum, f.loc⟩ := by
  induction fs with
  | nil => rfl
  | cons f fs ih =>
    obtain ⟨name, type, value, loc⟩ := f
    rw [toComponents, ih, List.map_cons]

end Node

/-! ## Formed trees -/

/-- The identifier is a name with a property. -/
def Ident.Is (P : String → Prop) (x : Ident) : Prop := ∃ s, x = .name s ∧ P s

def Param.Formed (p : Param) : Prop := p.name.Is IsName ∧ p.type.Readable

/-- Only an explicit value is written. -/
def EnumItem.Formed (v : EnumItem) : Prop :=
  v.name.Is IsName ∧ fits64 v.value = true ∧ (v.explicit = false → v.value = 0)

def FieldDecl.Formed (f : FieldDecl) : Prop := f.name.Is IsName ∧ f.type.Readable

def Arm.Formed (a : Arm) : Prop :=
  a.name.Is IsName ∧
    match a.shape with
    | .common => a.types = [] ∧ a.fields = []
    | .tuple => (∀ t ∈ a.types, t.Readable) ∧ a.fields = []
    | .struct => a.types = [] ∧ ∀ f ∈ a.fields, f.Formed
    | .other _ => False

/-- A declared field. -/
def Component.Declared (f : Component Node) : Prop :=
  f.name.Is IsName ∧ f.type.Readable ∧ f.value = .absent

/-- A component that has a value; its own value is left open. -/
def Component.Keyed (f : Component Node) : Prop := f.name.Is IsSymbol ∧ f.type = .unknown

/-- The text can be quoted: it holds no NUL, which ends every text. -/
abbrev IsText (s : String) : Prop := '\x00' ∉ s.toList

/-- The kinds that have nothing but operands, as many as `TreeReader.takes` says. -/
def Kind.onlyOperands : List Kind :=
  [.program, .block, .unsafeBlock, .externBlock, .tuple, .array, .ifThen, .whileLoop, .loop,
   .breakLoop, .continueLoop, .returnValue, .deref, .index]

/-- The tree is built by the rules; `op` says which texts are operators, `word` which are
identifiers and `text` which are the contents of strings, and `size` how many arms a variant has. -/
inductive Node.Formed (op word text : String → Prop) (size : Nat → Prop) : Node → Prop
  | operands {kind loc} {cs : List Node} (isKind : kind ∈ Kind.onlyOperands)
      (count : TreeReader.takes kind cs.length = true)
      (operands : ∀ c ∈ cs, Formed op word text size c) :
      Formed op word text size (.ofChildren { kind, loc } cs)
  | moduleDef {loc name cs} (isName : IsName name)
      (parts : ∀ c ∈ cs, Formed op word text size c) :
      Formed op word text size (.ofChildren { kind := .moduleDef, loc, name := .name name } cs)
  | record {kind loc name fs} (isKind : kind ∈ [.structDef, .unionDef]) (isName : IsName name)
      (fields : ∀ f ∈ fs, f.Declared) :
      Formed op word text size (.ofFields { kind, loc, name := .name name } fs)
  | enumDef {loc name values} (isName : IsName name)
      (items : ∀ v ∈ values, v.Formed) :
      Formed op word text size (.leaf { kind := .enumDef, loc, name := .name name, values })
  | variantDef {loc name} {arms : List Arm} (isName : IsName name)
      (isSize : size arms.length) (items : ∀ a ∈ arms, a.Formed) :
      Formed op word text size (.leaf { kind := .variantDef, loc, name := .name name, arms })
  | funcDef {loc name isUnsafe variadic params} {type : Ty} {body : Node}
      (isName : IsName name) (items : ∀ p ∈ params, p.Formed)
      (result : type.Readable) (isBlock : body = .absent ∨ body.kind? = some .block)
      (formed : body ≠ .absent → Formed op word text size body) :
      Formed op word text size (.mk
        { kind := .funcDef, loc, name := .name name, isUnsafe, variadic, params, type } [] [] body)
  | aliasDef {loc name} {type : Ty} (isName : IsName name)
      (target : type.Readable) :
      Formed op word text size (.leaf { kind := .aliasDef, loc, name := .name name, type })
  | varDef {kind loc name mutable} {type : Ty} {cs : List Node}
      (isKind : kind ∈ [.varDef, .staticDef, .constDef]) (isName : IsName name)
      (notMut : mutable = false → name ≠ "mut") (declared : type.Readable) (count : cs.length ≤ 1)
      (init : ∀ c ∈ cs, Formed op word text size c) :
      Formed op word text size (.ofChildren { kind, loc, name := .name name, mutable, type } cs)
  | int {loc integer} {type : Ty} (fits : fits64 integer = true)
      (declared : type.Readable) :
      Formed op word text size (.leaf { kind := .int, loc, integer, type })
  | float {loc s} (real : isReal s = true) :
      Formed op word text size (.leaf { kind := .float, loc, text := s })
  | str {loc s} (isText : text s) :
      Formed op word text size (.leaf { kind := .str, loc, text := s })
  | bool {loc truth} :
      Formed op word text size (.leaf { kind := .bool, loc, truth })
  | ident {loc name} (isWord : word name) :
      Formed op word text size (.leaf { kind := .ident, loc, name := .name name })
  | binary {kind loc operator a b}
      (isKind : kind ∈ [.binary, .assign]) (isOp : op operator) (left : Formed op word text size a)
      (right : Formed op word text size b) :
      Formed op word text size (.ofChildren { kind, loc, op := operator } [a, b])
  | unary {loc operator a} (isOp : op operator)
      (operand : Formed op word text size a) :
      Formed op word text size (.ofChildren { kind := .unary, loc, op := operator } [a])
  | ref {loc mutable a} (operand : Formed op word text size a) :
      Formed op word text size (.ofChildren { kind := .ref, loc, mutable } [a])
  | call {loc name cs} (isName : IsName name)
      (args : ∀ c ∈ cs, Formed op word text size c) :
      Formed op word text size (.ofChildren { kind := .call, loc, name := .name name } cs)
  | namedCall {loc name fs} (isName : IsName name)
      (keys : ∀ f ∈ fs, f.Keyed) (args : ∀ f ∈ fs, Formed op word text size f.value) :
      Formed op word text size
        (.ofFields { kind := .call, loc, name := .name name, named := true } fs)
  | lit {loc name fs} (isName : IsName name)
      (keys : ∀ f ∈ fs, f.Keyed) (values : ∀ f ∈ fs, Formed op word text size f.value) :
      Formed op word text size (.ofFields { kind := .lit, loc, name := .name name } fs)
  | access {kind loc a b} (isKind : kind ∈ [.dot, .path])
      (left : Formed op word text size a) (right : Formed op word text size b) :
      Formed op word text size (.ofChildren { kind, loc } [a, b])
  | cast {loc} {type : Ty} {a} (target : type.Readable)
      (operand : Formed op word text size a) :
      Formed op word text size (.ofChildren { kind := .cast, loc, type } [a])
  | literal {loc} {type : Ty} {fs} (declared : type.Readable)
      (keys : ∀ f ∈ fs, f.Keyed) (values : ∀ f ∈ fs, Formed op word text size f.value) :
      Formed op word text size (.ofFields { kind := .literal, loc, type } fs)
  | typedCall {loc} {type : Ty} {path : List String} {cs}
      (result : type.Readable) (callee : IsPath path)
      (args : ∀ c ∈ cs, Formed op word text size c) :
      Formed op word text size
        (.ofChildren { kind := .typedCall, loc, type, path := path.map .name } cs)
  | namedTypedCall {loc} {type : Ty} {path : List String} {fs}
      (result : type.Readable) (callee : IsPath path)
      (keys : ∀ f ∈ fs, f.Keyed) (args : ∀ f ∈ fs, Formed op word text size f.value) :
      Formed op word text size (.ofFields
        { kind := .typedCall, loc, type, path := path.map .name, named := true } fs)

/-! ## Reading declarations back -/

namespace TreeReader

variable {unit : String}

/-- What is read is `a`, as far as `e` tells. -/
def ReadsAs {α β : Type} (m : Read α) (e : α → β) (a : α) : Prop := ∃ a', m = .ok a' ∧ e a' = e a

namespace ReadsAs

variable {α β γ δ : Type} {e : α → γ} {e' : β → δ} {a : α} {b : β} {m : Read β} {f : β → Read α}

theorem ok {a' : α} (h : e a' = e a) : ReadsAs (.ok a') e a := ⟨a', rfl, h⟩

/-- The first part is read exactly. -/
theorem next (hm : m = .ok b) (h : ReadsAs (f b) e a) : ReadsAs (m >>= f) e a := hm ▸ h

theorem bind (hm : ReadsAs m e' b) (hf : ∀ b', e' b' = e' b → ReadsAs (f b') e a) :
    ReadsAs (m >>= f) e a := by
  obtain ⟨b', rfl, hb⟩ := hm
  exact hf b' hb

end ReadsAs

theorem readName_of_is {x : Ident} (h : x.Is IsName) {d : Datum}
    (hd : d.unplaced = (Datum.symbol x.text).unplaced) : readName unit d = .ok x := by
  obtain ⟨s, rfl, hs⟩ := h
  exact readName_of_isName hs hd

/-- Items are read back if each of them is; `w` writes an item, and `e` forgets what is not
written. -/
theorem mapM_readsBack {α : Type} {f : Datum → Read α} {w : α → Datum} {e : α → α} {l : List α}
    (h : ∀ x ∈ l, ∀ d : Datum, d.unplaced = (w x).unplaced → ReadsAs (f d) e x)
    {ds : List Datum} (hds : ds.map Datum.unplaced = (l.map w).map Datum.unplaced) :
    ReadsAs (ds.mapM f) (List.map e) l := by
  induction l generalizing ds with
  | nil =>
    simp only [List.map_nil, List.map_eq_nil_iff] at hds
    subst hds
    exact .ok rfl
  | cons x l ih =>
    obtain ⟨d, ds, rfl, hd, hds⟩ := Datum.unplaced_eq_cons hds
    obtain ⟨hx, hl⟩ := List.forall_mem_cons.1 h
    rw [List.mapM_cons]
    exact (hx d hd).bind fun y hy => (ih hl hds).bind fun ys hys => .ok (by simp [hy, hys])

theorem readFieldDecl_readsBack {f : FieldDecl} (h : f.Formed) (d : Datum)
    (hd : d.unplaced = (fieldDatum f.name f.type).unplaced) :
    ReadsAs (readFieldDecl unit d) FieldDecl.unplaced f := by
  obtain ⟨p, q, ds, rfl, hds⟩ := Datum.unplaced_eq_form hd
  obtain ⟨e₁, e₂, rfl, he₁, he₂⟩ := Datum.unplaced_eq_two hds
  simp only [readFieldDecl]
  exact .next (readName_of_is h.1 he₁) (.next (readType_of_readable h.2 he₂) (.ok rfl))

theorem readEnumValue_readsBack {v : EnumItem} (h : v.Formed) (d : Datum)
    (hd : d.unplaced = v.toDatum.unplaced) :
    ReadsAs (readEnumValue unit d) EnumItem.unplaced v := by
  obtain ⟨hname, hfits, himplicit⟩ := h
  obtain ⟨p, q, ds, rfl, hds⟩ := Datum.unplaced_eq_form hd
  cases hexplicit : v.explicit with
  | true =>
    simp only [hexplicit, if_true] at hds
    obtain ⟨e₁, e₂, rfl, he₁, he₂⟩ := Datum.unplaced_eq_two hds
    obtain ⟨q', rfl⟩ := Datum.unplaced_eq_integer he₂
    simp only [readEnumValue, readInteger, int64?_toString hfits]
    exact .next (readName_of_is hname he₁) (.ok (by simp [EnumItem.unplaced, hexplicit]))
  | false =>
    simp only [hexplicit, Bool.false_eq_true, if_false] at hds
    obtain ⟨e, rfl, he⟩ := Datum.unplaced_eq_one hds
    simp only [readEnumValue]
    exact .next (readName_of_is hname he)
      (.ok (by simp [EnumItem.unplaced, hexplicit, himplicit hexplicit]))

theorem readArm_readsBack {a : Arm} (h : a.Formed) (d : Datum)
    (hd : d.unplaced = a.toDatum.unplaced) : ReadsAs (readArm unit d) Arm.unplaced a := by
  obtain ⟨hname, hshape⟩ := h
  obtain ⟨name, shape, types, fields, loc⟩ := a
  cases shape with
  | common =>
    obtain ⟨rfl, rfl⟩ := hshape
    obtain ⟨p, q, ds, rfl, hds⟩ := Datum.unplaced_eq_form hd
    obtain ⟨e, rfl, he⟩ := Datum.unplaced_eq_one hds
    exact .next (readName_of_is hname he) (.ok rfl)
  | tuple =>
    obtain ⟨htypes, rfl⟩ := hshape
    obtain ⟨p, q, ds, rfl, hds⟩ := Datum.unplaced_eq_form hd
    obtain ⟨e, es, rfl, he, hes⟩ := Datum.unplaced_eq_cons hds
    rw [Ty.toData_eq_map] at hes
    refine .next (readName_of_is hname he) ((mapM_readsBack (e := id) (fun t ht d hd =>
      ⟨t, readType_of_readable (htypes t ht) hd, rfl⟩) hes).bind fun ts hts => .ok ?_)
    simpa [Arm.unplaced] using hts
  | struct =>
    obtain ⟨rfl, hfields⟩ := hshape
    obtain ⟨p, q, ds, rfl, hds⟩ := Datum.unplaced_eq_form hd
    obtain ⟨e, es, rfl, he, hes⟩ := Datum.unplaced_eq_cons hds
    exact .next (readName_of_is hname he) ((mapM_readsBack (fun f hf =>
      readFieldDecl_readsBack (hfields f hf)) hes).bind fun fs hfs => .ok (by simp [Arm.unplaced, hfs]))
  | other => exact hshape.elim

theorem readParam_readsBack {x : Param} (h : x.Formed) (d : Datum)
    (hd : d.unplaced = x.toDatum.unplaced) : ReadsAs (readParam unit d) Param.unplaced x := by
  obtain ⟨hname, htype⟩ := h
  obtain ⟨p, ds, rfl, hds⟩ := Datum.unplaced_eq_ofItems hd
  cases hmut : x.mutable with
  | true =>
    simp only [hmut, if_true] at hds
    obtain ⟨m, es, rfl, hm, hes⟩ := Datum.unplaced_eq_cons hds
    obtain ⟨e₁, e₂, rfl, he₁, he₂⟩ := Datum.unplaced_eq_two hes
    obtain ⟨q, rfl⟩ := Datum.unplaced_eq_symbol hm
    simp only [readParam, Datum.isSymbol, beq_self_eq_true, if_true]
    exact .next (readName_of_is hname he₁) (.next (readType_of_readable htype he₂)
      (.ok (by simp [Param.unplaced, hmut])))
  | false =>
    simp only [hmut, Bool.false_eq_true, if_false] at hds
    obtain ⟨e₁, e₂, rfl, he₁, he₂⟩ := Datum.unplaced_eq_two hds
    simp only [readParam]
    exact .next (readName_of_is hname he₁) (.next (readType_of_readable htype he₂)
      (.ok (by simp [Param.unplaced, hmut])))

theorem readParams_readsBack {xs : List Param} (h : ∀ x ∈ xs, x.Formed) {d : Datum}
    (hd : d.unplaced =
      (Datum.ofItems (Datum.symbol "params" :: xs.map Param.toDatum)).unplaced) :
    ReadsAs (readParams unit d) (List.map Param.unplaced) xs := by
  obtain ⟨p, q, ds, rfl, hds⟩ := Datum.unplaced_eq_form hd
  rw [readParams]
  exact mapM_readsBack (fun x hx => readParam_readsBack (h x hx)) hds

/-- The attributes of a function are those that its metadata sets. -/
theorem readAttributes_notes {p} {h g : Head} {notes : List (String × Datum)}
    (hnotes : notes.map (fun e => (e.1, e.2.unplaced)) = h.notes.map fun e => (e.1, e.2.unplaced))
    (hrisky : g.isUnsafe = false) (hvariadic : g.variadic = false) :
    readAttributes unit p notes g =
      .ok { g with isUnsafe := h.isUnsafe, variadic := h.variadic } := by
  have htrue : ∀ {d : Datum}, d.unplaced = (Datum.symbol "true").unplaced →
      d.isSymbol "true" = true := by
    intro d hd
    obtain ⟨q, rfl⟩ := Datum.unplaced_eq_symbol hd
    rfl
  have hcons : ∀ {notes rest : List (String × Datum)} {key : String} {v : Datum},
      notes.map (fun e => (e.1, e.2.unplaced)) = (key, v) :: rest →
        ∃ d ds, notes = (key, d) :: ds ∧ d.unplaced = v ∧
          ds.map (fun e => (e.1, e.2.unplaced)) = rest := by
    intro notes rest key v hnotes
    obtain ⟨⟨k, d⟩, ds, rfl, he, hds⟩ := List.map_eq_cons_iff.1 hnotes
    cases he
    exact ⟨d, ds, rfl, rfl, hds⟩
  obtain ⟨kind, loc, name, op, integer, text, truth, mutable, isUnsafe, variadic, named⟩ := g
  subst hrisky hvariadic
  cases hu : h.isUnsafe <;> cases hv : h.variadic <;>
    simp only [Head.notes, hu, hv, Bool.false_eq_true, if_true, if_false, List.nil_append,
      List.append_nil, List.cons_append, List.map_cons, List.map_nil] at hnotes
  · rw [List.map_eq_nil_iff.1 hnotes, readAttributes]
  iterate 2
    obtain ⟨d, ds, rfl, hd, hds⟩ := hcons hnotes
    cases List.map_eq_nil_iff.1 hds
    simp [readAttributes, htrue hd]
  obtain ⟨d, ds, rfl, hd, hds⟩ := hcons hnotes
  obtain ⟨d', ds', rfl, hd', hds'⟩ := hcons hds
  cases List.map_eq_nil_iff.1 hds'
  simp [readAttributes, htrue hd, htrue hd']

end TreeReader

/-! ## Reading nodes back -/

/-- A text that can stand for an identifier where an expression is expected. -/
structure IsIdentifier (s : String) : Prop extends IsSegment s where
  notTrue : s ≠ "true"
  notFalse : s ≠ "false"

theorem Kind.ofName_name {kind : Kind} (h : ∀ name, kind ≠ .other name) :
    Kind.ofName kind.name = kind := by
  cases kind with
  | other name => exact absurd rfl (h name)
  | _ => decide

namespace Node

variable {kind : Kind} {loc : Location} {cs : List Datum}

theorem toDatum_ofChildren (h : Head) (cs : List Node) :
    (ofChildren h cs).toDatum = datumOf h (cs.map toDatum) [] none := by
  rw [ofChildren, toDatum, toData_eq_map, toComponents, toBody]

theorem toDatum_ofFields (h : Head) (fs : List (Component Node)) :
    (ofFields h fs).toDatum =
      datumOf h [] (fs.map fun f => ⟨f.name, f.type, f.value.toDatum, f.loc⟩) none := by
  rw [ofFields, toDatum, toData, toComponents_eq_map, toBody]

/-- A node that has nothing but operands is written with them. -/
theorem datumOf_operands (isKind : kind ∈ Kind.onlyOperands) :
    datumOf { kind, loc } cs [] none = .ofItems (.symbol kind.name :: cs) := by
  fin_cases isKind
  all_goals rfl

/-- A struct or a union is written with its declared fields. -/
theorem datumOf_record {name : String}
    {fs : List (Component Node)} (isKind : kind ∈ [.structDef, .unionDef]) :
    datumOf { kind, loc, name := .name name } []
      (fs.map fun f => ⟨f.name, f.type, f.value.toDatum, f.loc⟩) none =
      .ofItems (.symbol kind.name :: .symbol name :: fs.map fun f => fieldDatum f.name f.type) := by
  rcases List.mem_pair.1 isKind with rfl | rfl
  all_goals simp [datumOf, Ident.text, Function.comp_def]

theorem datumOf_variable {name : String} {mutable : Bool}
    {type : Ty} (isKind : kind ∈ [.varDef, .staticDef, .constDef]) :
    datumOf { kind, loc, name := .name name, mutable, type } cs [] none =
      .ofItems (.symbol kind.name :: ((if mutable then [.symbol "mut"] else []) ++
        .symbol name :: type.toDatum :: cs)) := by
  simp only [List.mem_cons, List.not_mem_nil, or_false] at isKind
  rcases isKind with rfl | rfl | rfl
  all_goals rfl

theorem datumOf_binary {operator : String} (isKind : kind ∈ [.binary, .assign]) :
    datumOf { kind, loc, op := operator } cs [] none =
      .ofItems (.symbol kind.name :: .symbol operator :: cs) := by
  rcases List.mem_pair.1 isKind with rfl | rfl
  all_goals rfl

theorem datumOf_access (isKind : kind ∈ [.dot, .path]) :
    datumOf { kind, loc } cs [] none = .ofItems (.symbol kind.name :: cs) := by
  rcases List.mem_pair.1 isKind with rfl | rfl
  all_goals rfl

theorem datumOf_int {integer : Int} {type : Ty} :
    datumOf { kind := .int, loc, integer, type } [] [] none =
      if type.isUnknown then .integer (toString integer)
      else .ofItems [.symbol "int", type.toDatum, .integer (toString integer)] := rfl

theorem toBody_eq {n : Node} (h : n ≠ .absent) : n.toBody = some n.toDatum := by
  cases n with
  | absent => exact absurd rfl h
  | mk h cs fs b => rw [toBody, toDatum]

end Node

namespace TreeReader

variable {unit : String}

/-- Whatever says the same as the written form of the node is read as the node. -/
def ReadsBack (unit : String) (n : Node) : Prop :=
  ∀ d : Datum, d.unplaced = n.toDatum.unplaced →
    ∃ n', readNode unit d = .ok n' ∧ n'.unplaced = n.unplaced

/-- A node that is written as a list that starts with the word for its kind. -/
theorem ReadsBack.form (kind : Kind) {n : Node} {items : List Datum}
    (hn : n.toDatum = .ofItems (.symbol kind.name :: items))
    (h : ∀ p q ds, ds.map Datum.unplaced = items.map Datum.unplaced →
      ReadsAs (readNode unit (.list p [] (.atom q [] .symbol kind.name :: ds))) Node.unplaced n) :
    ReadsBack unit n := by
  intro d hd
  rw [hn] at hd
  obtain ⟨p, q, ds, rfl, hds⟩ := Datum.unplaced_eq_form hd
  exact h p q ds hds

theorem readNodes_eq_mapM : ∀ ds : List Datum, readNodes unit ds = ds.mapM (readNode unit)
  | [] => rfl
  | d :: ds => by rw [readNodes, List.mapM_cons, readNodes_eq_mapM ds]

theorem readNodes_readsBack {cs : List Node} (h : ∀ c ∈ cs, ReadsBack unit c) {ds : List Datum}
    (hds : ds.map Datum.unplaced = (cs.map Node.toDatum).map Datum.unplaced) :
    ReadsAs (readNodes unit ds) (List.map Node.unplaced) cs := by
  rw [readNodes_eq_mapM]
  exact mapM_readsBack h hds

theorem readComponents_readsBack {fs : List (Component Node)} (hkeys : ∀ f ∈ fs, f.Keyed)
    (h : ∀ f ∈ fs, ReadsBack unit f.value) {es : List (String × Datum)}
    (hes : es.map (fun e => (e.1, e.2.unplaced)) =
      (fs.map fun f => (f.name.text, f.value.toDatum)).map fun e => (e.1, e.2.unplaced)) :
    ReadsAs (readComponents unit es) (List.map Component.unplaced) fs := by
  induction fs generalizing es with
  | nil =>
    simp only [List.map_nil, List.map_eq_nil_iff] at hes
    subst hes
    exact .ok rfl
  | cons f fs ih =>
    obtain ⟨⟨⟨s, hname, -⟩, htype⟩, hkeys⟩ := List.forall_mem_cons.1 hkeys
    obtain ⟨hf, hfs⟩ := List.forall_mem_cons.1 h
    obtain ⟨⟨key, d⟩, es, rfl, he, hrest⟩ := List.map_eq_cons_iff.1 hes
    simp only [Prod.mk.injEq] at he
    obtain ⟨rfl, hd⟩ := he
    rw [readComponents]
    refine ReadsAs.bind (hf d hd) fun v hv => (ih hkeys hfs hrest).bind fun fs' hfs' => .ok ?_
    simp [Component.unplaced, hname, Ident.text, htype, hv, hfs']

theorem components_readsBack {fs : List (Component Node)} (hkeys : ∀ f ∈ fs, f.Keyed)
    (h : ∀ f ∈ fs, ReadsBack unit f.value) {d : Datum}
    (hd : d.unplaced = (Datum.ofEntries (((fs.map fun f => ⟨f.name, f.type, f.value.toDatum, f.loc⟩ :
      List (Component Datum))).map fun f => (f.name.text, f.value))).unplaced) :
    ∃ p es, d = .map p [] es ∧ ReadsAs (readComponents unit es) (List.map Component.unplaced) fs := by
  rw [List.map_map] at hd
  obtain ⟨p, es, rfl, hes⟩ := Datum.unplaced_eq_ofEntries hd
  exact ⟨p, es, rfl, readComponents_readsBack hkeys h hes⟩

variable {kind : Kind} {loc : Location} {name : String} {type : Ty} {cs : List Node}
  {fs : List (Component Node)}

theorem operands_readsBack (isKind : kind ∈ Kind.onlyOperands)
    (count : takes kind cs.length = true) (h : ∀ c ∈ cs, ReadsBack unit c) :
    ReadsBack unit (.ofChildren { kind, loc } cs) := by
  refine .form kind (by rw [Node.toDatum_ofChildren, Node.datumOf_operands isKind])
    fun p q ds hds => ?_
  have hlen : ds.length = cs.length := by simpa using congrArg List.length hds
  have hread : ReadsAs (do return .ofChildren { kind, loc := .ofPos unit p } (← readNodes unit ds))
      Node.unplaced (.ofChildren { kind, loc } cs) :=
    (readNodes_readsBack h hds).bind fun cs' hcs => .ok (by simp [Head.unplaced, hcs])
  fin_cases isKind
  all_goals
    unfold readNode
    dsimp only
    rw [Kind.ofName_name (by simp)]
    dsimp only
    rw [hlen, if_pos count]
    exact hread

theorem moduleDef_readsBack (isName : IsName name) (h : ∀ c ∈ cs, ReadsBack unit c) :
    ReadsBack unit (.ofChildren { kind := .moduleDef, loc, name := .name name } cs) := by
  refine .form .moduleDef (Node.toDatum_ofChildren _ _) fun p q ds hds => ?_
  obtain ⟨e, es, rfl, he, hes⟩ := Datum.unplaced_eq_cons hds
  rw [readNode, Kind.ofName_name (by simp)]
  exact .next (readName_of_isName isName he) ((readNodes_readsBack h hes).bind fun cs' hcs =>
    .ok (by simp [Head.unplaced, hcs]))

theorem record_readsBack (isKind : kind ∈ [.structDef, .unionDef]) (isName : IsName name)
    (fields : ∀ f ∈ fs, f.Declared) :
    ReadsBack unit (.ofFields { kind, loc, name := .name name } fs) := by
  refine .form kind (by rw [Node.toDatum_ofFields, Node.datumOf_record isKind])
    fun p q ds hds => ?_
  obtain ⟨e, es, rfl, he, hes⟩ := Datum.unplaced_eq_cons hds
  have hdecls : ReadsAs (es.mapM (readFieldDecl unit)) (List.map FieldDecl.unplaced)
      (fs.map fun f => ⟨f.name, f.type, f.loc⟩) := by
    refine mapM_readsBack (w := fun f => fieldDatum f.name f.type) ?_
      (by simpa [Function.comp_def] using hes)
    simp only [List.forall_mem_map]
    exact fun f hf => readFieldDecl_readsBack (f := ⟨f.name, f.type, f.loc⟩)
      ⟨(fields f hf).1, (fields f hf).2.1⟩
  have hread : ReadsAs (do
      let name ← readName unit e
      let decls ← es.mapM (readFieldDecl unit)
      return .ofFields { kind, loc := .ofPos unit p, name }
        (decls.map fun f => ⟨f.name, f.type, .absent, f.loc⟩))
      Node.unplaced (.ofFields { kind, loc, name := .name name } fs) := by
    refine .next (readName_of_isName isName he) (hdecls.bind fun decls hsame => .ok ?_)
    have hvalues := congrArg
      (List.map fun f : FieldDecl => (⟨f.name, f.type, .absent, {}⟩ : Component Node)) hsame
    simp only [List.map_map, Function.comp_def, FieldDecl.unplaced] at hvalues
    simp only [Node.unplaced_ofFields, List.map_map, Function.comp_def, Component.unplaced,
      Node.unplaced, Head.unplaced]
    rw [hvalues]
    refine congrArg _ (List.map_congr_left fun f hf => ?_)
    rw [Component.unplaced, (fields f hf).2.2, Node.unplaced]
  rcases List.mem_pair.1 isKind with rfl | rfl
  all_goals
    rw [readNode, Kind.ofName_name (by simp)]
    exact hread

theorem enumDef_readsBack {values} (isName : IsName name) (items : ∀ v ∈ values, v.Formed) :
    ReadsBack unit (.leaf { kind := .enumDef, loc, name := .name name, values }) := by
  refine .form .enumDef rfl fun p q ds hds => ?_
  obtain ⟨e, es, rfl, he, hes⟩ := Datum.unplaced_eq_cons hds
  rw [readNode, Kind.ofName_name (by simp)]
  exact .next (readName_of_isName isName he) ((mapM_readsBack (fun v hv =>
    readEnumValue_readsBack (items v hv)) hes).bind fun vs hvs => .ok (by simp [Head.unplaced, hvs]))

theorem variantDef_readsBack {arms} (isName : IsName name) (items : ∀ a ∈ arms, a.Formed) :
    ReadsBack unit (.leaf { kind := .variantDef, loc, name := .name name, arms }) := by
  refine .form .variantDef rfl fun p q ds hds => ?_
  obtain ⟨e, es, rfl, he, hes⟩ := Datum.unplaced_eq_cons hds
  rw [readNode, Kind.ofName_name (by simp)]
  exact .next (readName_of_isName isName he) ((mapM_readsBack (fun a ha =>
    readArm_readsBack (items a ha)) hes).bind fun as has => .ok (by simp [Head.unplaced, has]))

theorem aliasDef_readsBack (isName : IsName name) (target : type.Readable) :
    ReadsBack unit (.leaf { kind := .aliasDef, loc, name := .name name, type }) := by
  refine .form .aliasDef rfl fun p q ds hds => ?_
  obtain ⟨e₁, e₂, rfl, he₁, he₂⟩ := Datum.unplaced_eq_two hds
  rw [readNode, Kind.ofName_name (by simp)]
  exact .next (readName_of_isName isName he₁) (.next (readType_of_readable target he₂) (.ok rfl))

theorem readFunction_readsBack {p : Pos} {notes : List (String × Datum)} {e₁ e₂ e₃ : Datum}
    {h : Head} {b read} (isName : IsName name) (items : ∀ x ∈ h.params, x.Formed)
    (result : h.type.Readable)
    (hnotes : notes.map (fun e => (e.1, e.2.unplaced)) = h.notes.map fun e => (e.1, e.2.unplaced))
    (he₁ : e₁.unplaced = (Datum.symbol name).unplaced)
    (he₂ : e₂.unplaced =
      (Datum.ofItems (Datum.symbol "params" :: h.params.map Param.toDatum)).unplaced)
    (he₃ : e₃.unplaced = h.type.toDatum.unplaced) (hb : ReadsAs read Node.unplaced b) :
    ReadsAs (readFunction unit { kind := .funcDef, loc := .ofPos unit p } p notes e₁ e₂ e₃ read)
      Node.unplaced (.mk
        { kind := .funcDef, loc, name := .name name, isUnsafe := h.isUnsafe,
          variadic := h.variadic, params := h.params, type := h.type } [] [] b) :=
  .next (readAttributes_notes hnotes rfl rfl) (.next (readName_of_isName isName he₁)
    ((readParams_readsBack items he₂).bind fun ps hps => .next (readType_of_readable result he₃)
      (hb.bind fun b' hb' => .ok (by simp [Node.unplaced, Head.unplaced, hps, hb']))))

theorem kind?_unplaced (n : Node) : n.unplaced.kind? = n.kind? := by
  cases n <;> rfl

theorem funcDef_readsBack {isUnsafe variadic : Bool} {params} {body : Node} (isName : IsName name)
    (items : ∀ x ∈ params, x.Formed) (result : type.Readable)
    (isBlock : body = .absent ∨ body.kind? = some .block)
    (h : body ≠ .absent → ReadsBack unit body) :
    ReadsBack unit (.mk
      { kind := .funcDef, loc, name := .name name, isUnsafe, variadic, params, type } [] [] body) := by
  intro d hd
  obtain ⟨p, notes, ds, rfl, hnotes, hds⟩ := Datum.unplaced_eq_list hd
  obtain ⟨e₀, es₀, rfl, he₀, hes₀⟩ := Datum.unplaced_eq_cons hds
  obtain ⟨q, rfl⟩ := Datum.unplaced_eq_symbol he₀
  obtain ⟨e₁, es₁, rfl, he₁, hes₁⟩ := Datum.unplaced_eq_cons hes₀
  obtain ⟨e₂, es₂, rfl, he₂, hes₂⟩ := Datum.unplaced_eq_cons hes₁
  obtain ⟨e₃, es₃, rfl, he₃, hes₃⟩ := Datum.unplaced_eq_cons hes₂
  rw [readNode, Kind.ofName_name (by simp)]
  rcases isBlock with rfl | hblock
  · rw [Node.toBody] at hes₃
    cases List.map_eq_nil_iff.1 hes₃
    exact readFunction_readsBack isName items result hnotes he₁ he₂ he₃ (.ok rfl)
  · have hne : body ≠ .absent := by rintro rfl; cases hblock
    rw [Node.toBody_eq hne] at hes₃
    obtain ⟨e₄, rfl, he₄⟩ := Datum.unplaced_eq_one hes₃
    refine readFunction_readsBack isName items result hnotes he₁ he₂ he₃
      (ReadsAs.bind (h hne e₄ he₄) fun b' hsame => ?_)
    have hkind : b'.head.kind = .block := by
      rw [← kind?_unplaced, ← hsame, kind?_unplaced] at hblock
      cases b' with
      | absent => cases hblock
      | mk g cs fs b => exact Option.some.inj hblock
    rw [if_pos hkind]
    exact .ok hsame

theorem readVariable_readsBack {mutable : Bool} {p : Pos} {e₁ e₂ : Datum} {read}
    (isName : IsName name) (declared : type.Readable)
    (he₁ : e₁.unplaced = (Datum.symbol name).unplaced) (he₂ : e₂.unplaced = type.toDatum.unplaced)
    (hread : ReadsAs read (List.map Node.unplaced) cs) :
    ReadsAs (readVariable unit { kind, loc := .ofPos unit p } mutable e₁ e₂ read) Node.unplaced
      (.ofChildren { kind, loc, name := .name name, mutable, type } cs) :=
  .next (readName_of_isName isName he₁) (.next (readType_of_readable declared he₂)
    (hread.bind fun cs' hcs => .ok (by simp [Head.unplaced, hcs])))

theorem isSymbol_mut {name : String} {d : Datum} (hd : d.unplaced = (Datum.symbol name).unplaced) :
    d.isSymbol "mut" = (name == "mut") := by
  obtain ⟨p, rfl⟩ := Datum.unplaced_eq_symbol hd
  rfl

theorem variable_readsBack {mutable : Bool} (isKind : kind ∈ [.varDef, .staticDef, .constDef])
    (isName : IsName name) (notMut : mutable = false → name ≠ "mut") (declared : type.Readable)
    (count : cs.length ≤ 1) (h : ∀ c ∈ cs, ReadsBack unit c) :
    ReadsBack unit (.ofChildren { kind, loc, name := .name name, mutable, type } cs) := by
  refine .form kind (by rw [Node.toDatum_ofChildren, Node.datumOf_variable isKind])
    fun p q ds hds => ?_
  -- an initializer or nothing
  have hinit : ∀ {es : List Datum}, es.map Datum.unplaced = (cs.map Node.toDatum).map Datum.unplaced →
      (es = [] ∧ cs = []) ∨ ∃ e, es = [e] ∧
        ReadsAs (do return [← readNode unit e]) (List.map Node.unplaced) cs := by
    intro es hes
    match cs, count with
    | [], _ => exact .inl ⟨List.map_eq_nil_iff.1 hes, rfl⟩
    | [c], _ =>
      obtain ⟨e, rfl, he⟩ := Datum.unplaced_eq_one hes
      exact .inr ⟨e, rfl, ReadsAs.bind (h c (by simp) e he) fun c' hc => .ok (by simp [hc])⟩
  simp only [List.mem_cons, List.not_mem_nil, or_false] at isKind
  -- the operands: `mut` or nothing, then name, type and initializer
  cases mutable with
  | false =>
    simp only [Bool.false_eq_true, if_false, List.nil_append] at hds
    obtain ⟨e₁, es₁, rfl, he₁, hes₁⟩ := Datum.unplaced_eq_cons hds
    obtain ⟨e₂, es₂, rfl, he₂, hes₂⟩ := Datum.unplaced_eq_cons hes₁
    have hname : ¬ e₁.isSymbol "mut" = true := by simpa [isSymbol_mut he₁] using notMut rfl
    rcases hinit hes₂ with ⟨rfl, rfl⟩ | ⟨e₃, rfl, hread⟩
    all_goals
      rcases isKind with rfl | rfl | rfl
      all_goals
        rw [readNode, Kind.ofName_name (by simp)]
        dsimp only
        rw [if_neg hname]
        first
          | exact readVariable_readsBack isName declared he₁ he₂ hread
          | exact readVariable_readsBack isName declared he₁ he₂ (.ok rfl)
  | true =>
    simp only [if_true, List.cons_append, List.nil_append] at hds
    obtain ⟨m, es₀, rfl, hm, hes₀⟩ := Datum.unplaced_eq_cons hds
    obtain ⟨e₁, es₁, rfl, he₁, hes₁⟩ := Datum.unplaced_eq_cons hes₀
    obtain ⟨e₂, es₂, rfl, he₂, hes₂⟩ := Datum.unplaced_eq_cons hes₁
    have hmark : m.isSymbol "mut" = true := by simp [isSymbol_mut hm]
    rcases hinit hes₂ with ⟨rfl, rfl⟩ | ⟨e₃, rfl, hread⟩
    all_goals
      rcases isKind with rfl | rfl | rfl
      all_goals
        rw [readNode, Kind.ofName_name (by simp)]
        dsimp only
        rw [if_pos hmark]
        first
          | exact readVariable_readsBack isName declared he₁ he₂ hread
          | exact readVariable_readsBack isName declared he₁ he₂ (.ok rfl)

theorem int_readsBack {integer : Int} (fits : fits64 integer = true) (declared : type.Readable) :
    ReadsBack unit (.leaf { kind := .int, loc, integer, type }) := by
  by_cases hunknown : type.isUnknown = true
  · intro d hd
    rw [Node.leaf, Node.toDatum, Node.toData, Node.toComponents, Node.toBody, Node.datumOf_int,
      if_pos hunknown] at hd
    obtain ⟨p, rfl⟩ := Datum.unplaced_eq_integer hd
    refine ⟨.leaf { kind := .int, loc := .ofPos unit p, integer }, ?_, ?_⟩
    · rw [readNode_integer, readInteger, int64?_toString fits]
      rfl
    · cases type with
      | unknown => rfl
      | _ => cases hunknown
  · refine .form .int (Node.datumOf_int.trans (if_neg hunknown)) fun p q ds hds => ?_
    obtain ⟨e₁, e₂, rfl, he₁, he₂⟩ := Datum.unplaced_eq_two hds
    obtain ⟨q', rfl⟩ := Datum.unplaced_eq_integer he₂
    rw [readNode, Kind.ofName_name (by simp)]
    dsimp only
    rw [readInteger, int64?_toString fits]
    exact .next rfl (.next (readType_of_readable declared he₁) (.ok rfl))

theorem float_readsBack {text : String} (real : isReal text = true) :
    ReadsBack unit (.leaf { kind := .float, loc, text }) := by
  refine .form .float rfl fun p q ds hds => ?_
  obtain ⟨e, rfl, he⟩ := Datum.unplaced_eq_one hds
  obtain ⟨q', rfl⟩ := Datum.unplaced_eq_str he
  rw [readNode, Kind.ofName_name (by simp)]
  dsimp only
  rw [if_pos real]
  exact .ok rfl

theorem str_readsBack {text : String} : ReadsBack unit (.leaf { kind := .str, loc, text }) := by
  intro d hd
  obtain ⟨p, rfl⟩ := Datum.unplaced_eq_str hd
  exact ⟨.leaf { kind := .str, loc := .ofPos unit p, text }, readNode_string, rfl⟩

theorem bool_readsBack {truth : Bool} : ReadsBack unit (.leaf { kind := .bool, loc, truth }) := by
  intro d hd
  obtain ⟨p, rfl⟩ := Datum.unplaced_eq_symbol hd
  refine ⟨.leaf { kind := .bool, loc := .ofPos unit p, truth }, ?_, rfl⟩
  cases truth
  all_goals
    rw [readNode_symbol]
    rfl

theorem ident_readsBack (h : IsIdentifier name) :
    ReadsBack unit (.leaf { kind := .ident, loc, name := .name name }) := by
  intro d hd
  obtain ⟨p, rfl⟩ := Datum.unplaced_eq_symbol hd
  refine ⟨.leaf { kind := .ident, loc := .ofPos unit p, name := .name name }, ?_, rfl⟩
  have hne : name ≠ "" := by
    rintro rfl
    exact absurd h.symbol (by decide)
  have htext : Ident.text (.name name) = name := rfl
  rw [readNode_symbol, readSymbol]
  simp [htext, h.notTrue, h.notFalse, h.single, hne.symm]

theorem readOperator_readsBack {op : String} {d : Datum}
    (hd : d.unplaced = (Datum.symbol op).unplaced) : readOperator unit d = .ok op := by
  obtain ⟨p, rfl⟩ := Datum.unplaced_eq_symbol hd
  rfl

section Operators

variable {op : String} {a b : Node} (ha : ReadsBack unit a) (hb : ReadsBack unit b)

include ha

include hb in
theorem binary_readsBack (isKind : kind ∈ [.binary, .assign]) :
    ReadsBack unit (.ofChildren { kind, loc, op } [a, b]) := by
  refine .form kind (by rw [Node.toDatum_ofChildren, Node.datumOf_binary isKind])
    fun p q ds hds => ?_
  obtain ⟨e, es, rfl, he, hes⟩ := Datum.unplaced_eq_cons hds
  obtain ⟨e₁, e₂, rfl, he₁, he₂⟩ := Datum.unplaced_eq_two hes
  rcases List.mem_pair.1 isKind with rfl | rfl
  all_goals
    rw [readNode, Kind.ofName_name (by simp)]
    exact .next (readOperator_readsBack he) (ReadsAs.bind (ha e₁ he₁) fun a' ha' =>
      ReadsAs.bind (hb e₂ he₂) fun b' hb' => .ok (by simp [Head.unplaced, ha', hb']))

theorem unary_readsBack : ReadsBack unit (.ofChildren { kind := .unary, loc, op } [a]) := by
  refine .form .unary (Node.toDatum_ofChildren _ _) fun p q ds hds => ?_
  obtain ⟨e₁, e₂, rfl, he₁, he₂⟩ := Datum.unplaced_eq_two hds
  rw [readNode, Kind.ofName_name (by simp)]
  exact .next (readOperator_readsBack he₁) (ReadsAs.bind (ha e₂ he₂) fun a' ha' =>
    .ok (by simp [Head.unplaced, ha']))

theorem ref_readsBack {mutable : Bool} :
    ReadsBack unit (.ofChildren { kind := .ref, loc, mutable } [a]) := by
  refine .form .ref (Node.toDatum_ofChildren _ _) fun p q ds hds => ?_
  cases mutable with
  | false =>
    obtain ⟨e, rfl, he⟩ := Datum.unplaced_eq_one hds
    rw [readNode, Kind.ofName_name (by simp)]
    exact ReadsAs.bind (ha e he) fun a' ha' => .ok (by simp [Head.unplaced, ha'])
  | true =>
    obtain ⟨m, e, rfl, hm, he⟩ := Datum.unplaced_eq_two hds
    rw [readNode, Kind.ofName_name (by simp)]
    dsimp only
    rw [if_pos (by simp [isSymbol_mut hm])]
    exact ReadsAs.bind (ha e he) fun a' ha' => .ok (by simp [Head.unplaced, ha'])

theorem cast_readsBack (target : type.Readable) :
    ReadsBack unit (.ofChildren { kind := .cast, loc, type } [a]) := by
  refine .form .cast (Node.toDatum_ofChildren _ _) fun p q ds hds => ?_
  obtain ⟨e₁, e₂, rfl, he₁, he₂⟩ := Datum.unplaced_eq_two hds
  rw [readNode, Kind.ofName_name (by simp)]
  exact ReadsAs.bind (ha e₁ he₁) fun a' ha' => .next (readType_of_readable target he₂)
    (.ok (by simp [Head.unplaced, ha']))

include hb in
theorem access_readsBack (isKind : kind ∈ [.dot, .path]) :
    ReadsBack unit (.ofChildren { kind, loc } [a, b]) := by
  refine .form kind (by rw [Node.toDatum_ofChildren, Node.datumOf_access isKind])
    fun p q ds hds => ?_
  obtain ⟨e₁, e₂, rfl, he₁, he₂⟩ := Datum.unplaced_eq_two hds
  have hrest : ReadsAs (readNodes unit [e₂]) (List.map Node.unplaced) [b] :=
    readNodes_readsBack (by simpa using hb) (by simpa using he₂)
  rcases List.mem_pair.1 isKind with rfl | rfl
  all_goals
    rw [readNode, Kind.ofName_name (by simp)]
    refine ReadsAs.bind (ha e₁ he₁) fun a' ha' => hrest.bind fun bs hbs => ?_
    obtain ⟨b', rfl, hb'⟩ : ∃ b', bs = [b'] ∧ b'.unplaced = b.unplaced := by
      simpa [List.map_eq_singleton_iff] using hbs
    exact .ok (by simp [nest, Head.unplaced, ha', hb'])

end Operators

/-- No node is written as a map, so positional arguments are not taken for named ones. -/
theorem toDatum_ne_map (n : Node) (p : Pos) (notes entries : List (String × Datum)) :
    n.toDatum ≠ .map p notes entries := by
  cases n with
  | absent => nofun
  | mk h cs fs b =>
    rw [Node.toDatum]
    unfold Node.datumOf
    dsimp only
    split
    · split <;> nofun
    all_goals nofun

theorem unplaced_ne_map {d : Datum} {n : Node} (hd : d.unplaced = n.toDatum.unplaced) (p : Pos)
    (notes entries : List (String × Datum)) : d ≠ .map p notes entries := by
  rintro rfl
  cases hn : n.toDatum with
  | map p' notes' entries' => exact toDatum_ne_map n p' notes' entries' hn
  | atom _ _ sort _ => cases sort <;> simp [hn, Datum.unplaced] at hd
  | _ => simp [hn, Datum.unplaced] at hd

theorem readCallee_readsBack {h} {path : List String} {e₁ e₂ : Datum} (result : type.Readable)
    (callee : IsPath path) (he₁ : e₁.unplaced = type.toDatum.unplaced)
    (he₂ : e₂.unplaced = (Datum.symbol (Ident.joinPath (path.map .name))).unplaced) :
    readCallee unit h e₁ e₂ = .ok { h with type, path := path.map .name } := by
  obtain ⟨p, rfl⟩ := Datum.unplaced_eq_symbol he₂
  rw [readCallee, readType_of_readable result he₁, joinPath_names]
  simp only [bind, Except.bind, callee.segments]
  rfl

theorem operands_ne_map {es : List Datum}
    (hes : es.map Datum.unplaced = (cs.map Node.toDatum).map Datum.unplaced) {e} (he : e ∈ es)
    (p : Pos) (notes entries : List (String × Datum)) : e ≠ .map p notes entries := by
  have hmem : e.unplaced ∈ (cs.map Node.toDatum).map Datum.unplaced :=
    hes ▸ List.mem_map_of_mem he
  simp only [List.map_map, List.mem_map] at hmem
  obtain ⟨c, -, hc⟩ := hmem
  exact unplaced_ne_map hc.symm p notes entries

section Calls

variable {path : List String}

theorem call_readsBack (isName : IsName name) (h : ∀ c ∈ cs, ReadsBack unit c) :
    ReadsBack unit (.ofChildren { kind := .call, loc, name := .name name } cs) := by
  refine .form .call (Node.toDatum_ofChildren _ _) fun p q ds hds => ?_
  obtain ⟨e, es, rfl, he, hes⟩ := Datum.unplaced_eq_cons hds
  rw [readNode, Kind.ofName_name (by simp)]
  dsimp only
  split
  · contradiction
  · rename_i hargs
    cases hargs
    exact absurd rfl (operands_ne_map hes (List.mem_singleton_self _) _ _ _)
  · rename_i hargs
    cases hargs
    exact .next (readName_of_isName isName he) ((readNodes_readsBack h hes).bind fun cs' hcs =>
      .ok (by simp [Head.unplaced, hcs]))

theorem typedCall_readsBack (result : type.Readable) (callee : IsPath path)
    (h : ∀ c ∈ cs, ReadsBack unit c) :
    ReadsBack unit (.ofChildren { kind := .typedCall, loc, type, path := path.map .name } cs) := by
  refine .form .typedCall (Node.toDatum_ofChildren _ _) fun p q ds hds => ?_
  obtain ⟨e₁, es₁, rfl, he₁, hes₁⟩ := Datum.unplaced_eq_cons hds
  obtain ⟨e₂, es₂, rfl, he₂, hes₂⟩ := Datum.unplaced_eq_cons hes₁
  rw [readNode, Kind.ofName_name (by simp)]
  dsimp only
  split
  · rename_i hargs
    cases hargs
    exact absurd rfl (operands_ne_map hes₂ (List.mem_singleton_self _) _ _ _)
  · rename_i hargs
    cases hargs
    exact .next (readCallee_readsBack result callee he₁ he₂)
      ((readNodes_readsBack h hes₂).bind fun cs' hcs => .ok (by simp [Head.unplaced, hcs]))
  · rename_i hargs
    exact (hargs _ _ _ rfl).elim

variable (keys : ∀ f ∈ fs, f.Keyed) (h : ∀ f ∈ fs, ReadsBack unit f.value)

include keys h

theorem namedCall_readsBack (isName : IsName name) :
    ReadsBack unit (.ofFields { kind := .call, loc, name := .name name, named := true } fs) := by
  refine .form .call (Node.toDatum_ofFields _ _) fun p q ds hds => ?_
  obtain ⟨e₁, e₂, rfl, he₁, he₂⟩ := Datum.unplaced_eq_two hds
  obtain ⟨q', es, rfl, hread⟩ := components_readsBack keys h he₂
  rw [readNode, Kind.ofName_name (by simp)]
  exact .next (readName_of_isName isName he₁) (hread.bind fun fs' hfs =>
    .ok (by simp [Head.unplaced, hfs]))

theorem lit_readsBack (isName : IsName name) :
    ReadsBack unit (.ofFields { kind := .lit, loc, name := .name name } fs) := by
  refine .form .lit (Node.toDatum_ofFields _ _) fun p q ds hds => ?_
  obtain ⟨e₁, e₂, rfl, he₁, he₂⟩ := Datum.unplaced_eq_two hds
  obtain ⟨q', es, rfl, hread⟩ := components_readsBack keys h he₂
  rw [readNode, Kind.ofName_name (by simp)]
  exact .next (readName_of_isName isName he₁) (hread.bind fun fs' hfs =>
    .ok (by simp [Head.unplaced, hfs]))

theorem literal_readsBack (declared : type.Readable) :
    ReadsBack unit (.ofFields { kind := .literal, loc, type } fs) := by
  refine .form .literal (Node.toDatum_ofFields _ _) fun p q ds hds => ?_
  obtain ⟨e₁, e₂, rfl, he₁, he₂⟩ := Datum.unplaced_eq_two hds
  obtain ⟨q', es, rfl, hread⟩ := components_readsBack keys h he₂
  rw [readNode, Kind.ofName_name (by simp)]
  exact .next (readType_of_readable declared he₁) (hread.bind fun fs' hfs =>
    .ok (by simp [Head.unplaced, hfs]))

theorem namedTypedCall_readsBack (result : type.Readable) (callee : IsPath path) :
    ReadsBack unit (.ofFields
      { kind := .typedCall, loc, type, path := path.map .name, named := true } fs) := by
  refine .form .typedCall (Node.toDatum_ofFields _ _) fun p q ds hds => ?_
  obtain ⟨e₁, es₁, rfl, he₁, hes₁⟩ := Datum.unplaced_eq_cons hds
  obtain ⟨e₂, e₃, rfl, he₂, he₃⟩ := Datum.unplaced_eq_two hes₁
  obtain ⟨q', es, rfl, hread⟩ := components_readsBack keys h he₃
  rw [readNode, Kind.ofName_name (by simp)]
  exact .next (readCallee_readsBack result callee he₁ he₂) (hread.bind fun fs' hfs =>
    .ok (by simp [Head.unplaced, hfs]))

end Calls

/-- A formed tree is read as it was written. -/
theorem readsBack_of_formed {text : String → Prop} {size : Nat → Prop} {n : Node}
    (h : n.Formed IsSymbol IsIdentifier text size) : ReadsBack unit n := by
  induction h with
  | operands isKind count _ ih => exact operands_readsBack isKind count ih
  | moduleDef isName _ ih => exact moduleDef_readsBack isName ih
  | record isKind isName fields => exact record_readsBack isKind isName fields
  | enumDef isName items => exact enumDef_readsBack isName items
  | variantDef isName _ items => exact variantDef_readsBack isName items
  | funcDef isName items result isBlock _ ih =>
    exact funcDef_readsBack isName items result isBlock ih
  | aliasDef isName target => exact aliasDef_readsBack isName target
  | varDef isKind isName notMut declared count _ ih =>
    exact variable_readsBack isKind isName notMut declared count ih
  | int fits declared => exact int_readsBack fits declared
  | float real => exact float_readsBack real
  | str _ => exact str_readsBack
  | bool => exact bool_readsBack
  | ident isWord => exact ident_readsBack isWord
  | binary isKind _ _ _ iha ihb => exact binary_readsBack iha ihb isKind
  | unary _ _ ih => exact unary_readsBack ih
  | ref _ ih => exact ref_readsBack ih
  | call isName _ ih => exact call_readsBack isName ih
  | namedCall isName keys _ ih => exact namedCall_readsBack keys ih isName
  | lit isName keys _ ih => exact lit_readsBack keys ih isName
  | access isKind _ _ iha ihb => exact access_readsBack iha ihb isKind
  | cast target _ ih => exact cast_readsBack ih target
  | literal declared keys _ ih => exact literal_readsBack keys ih declared
  | typedCall result callee _ ih => exact typedCall_readsBack result callee ih
  | namedTypedCall result callee keys _ ih => exact namedTypedCall_readsBack keys ih result callee

end TreeReader

end TreeSema
