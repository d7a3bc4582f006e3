import TreeSema.Proofs.RoundTrip.Tree

/-!
# The reader of programs inverts the writer

* `Node.Formed.legible`: the written form of a formed tree is legible.
-/
namespace TreeSema

open Text (Pos fits64 isReal isBlank)

/-! ## Written forms -/

theorem Ident.Is.symbol {P : String → Prop} (hP : ∀ s, P s → IsSymbol s) {x : Ident} (h : x.Is P) :
    IsSymbol x.text := by
  obtain ⟨s, rfl, hs⟩ := h
  exact hP s hs

theorem isSymbol_of_isName {x : Ident} (h : x.Is IsName) : IsSymbol x.text :=
  h.symbol fun _ hs => hs.symbol

theorem legible_fieldDatum {name : Ident} {type : Ty} (hname : name.Is IsName)
    (htype : type.Readable) : (fieldDatum name type).Legible := by
  have hword : IsSymbol "field" := by decide
  simp [fieldDatum, hword, isSymbol_of_isName hname, htype.legible]

theorem EnumItem.Formed.legible {v : EnumItem} (h : v.Formed) : v.toDatum.Legible := by
  have hword : IsSymbol "value" := by decide
  have hint := isInteger_toString v.value
  unfold EnumItem.toDatum
  cases v.explicit <;> simp_all [isSymbol_of_isName h.1]

theorem Arm.Formed.legible {a : Arm} (h : a.Formed) : a.toDatum.Legible := by
  obtain ⟨hname, hshape⟩ := h
  have hname := isSymbol_of_isName hname
  have harm : IsSymbol "arm" := by decide
  have htuple : IsSymbol "arm-tuple" := by decide
  have hstruct : IsSymbol "arm-struct" := by decide
  unfold Arm.toDatum
  split at hshape
  · simp_all
  · simp_all
    exact fun t ht => (hshape.1 t ht).legible
  · simp_all
    exact fun f hf => legible_fieldDatum (hshape.2 f hf).1 (hshape.2 f hf).2
  · exact hshape.elim

theorem Param.Formed.legible {p : Param} (h : p.Formed) : p.toDatum.Legible := by
  have hword : IsSymbol "mut" := by decide
  unfold Param.toDatum
  cases p.mutable <;> simp [hword, isSymbol_of_isName h.1, h.2.legible]

theorem legible_notes (h : Head) : (h.notes.map Prod.fst).Nodup ∧
    ∀ e ∈ h.notes, IsSymbol e.1 ∧ e.2.Legible := by
  have hrisky : IsSymbol "unsafe" := by decide
  have hvariadic : IsSymbol "variadic" := by decide
  have htrue : IsSymbol "true" := by decide
  unfold Head.notes
  cases h.isUnsafe <;> cases h.variadic <;> simp [hrisky, hvariadic, htrue]

/-- Named values are written as a map. -/
theorem legible_components {fs : List (Component Node)} (hkeys : ∀ f ∈ fs, f.Keyed)
    (h : ∀ f ∈ fs, f.value.toDatum.Legible) :
    (Datum.ofEntries (((fs.map fun f => ⟨f.name, f.type, f.value.toDatum, f.loc⟩ :
      List (Component Datum))).map fun f => (f.name.text, f.value))).Legible := by
  simp only [Datum.legible_ofEntries, List.map_map, List.forall_mem_map, Function.comp_apply]
  exact fun f hf => ⟨(hkeys f hf).1.symbol fun _ hs => hs, h f hf⟩

theorem legible_pair (kind : Kind) (hkind : IsSymbol kind.name) {d d' : Datum} (h : d.Legible)
    (h' : d'.Legible) : (Datum.ofItems [.symbol kind.name, d, d']).Legible := by
  simp only [Datum.legible_ofItems, List.forall_mem_cons, Datum.legible_symbol]
  exact ⟨hkind, h, h', List.forall_mem_nil _⟩

/-- The written form of a formed tree is legible. -/
theorem Node.Formed.legible {op word text : String → Prop} {size : Nat → Prop}
    (hop : ∀ s, op s → IsSymbol s) (hword : ∀ s, word s → IsSymbol s)
    (htext : ∀ s, text s → IsText s) {n : Node}
    (h : n.Formed op word text size) : n.toDatum.Legible := by
  have hmut : IsSymbol "mut" := by decide
  induction h with
  | @operands kind loc cs isKind count _ ih =>
    have hname := (show ∀ k ∈ Kind.onlyOperands, IsSymbol k.name by decide) kind isKind
    rw [toDatum_ofChildren, datumOf_operands isKind]
    simpa [hname] using ih
  | @moduleDef loc name cs isName _ ih =>
    have hname : IsSymbol Kind.moduleDef.name := by decide
    rw [toDatum_ofChildren]
    simpa [datumOf, hname, Ident.text, isName.symbol] using ih
  | @record kind loc name fs isKind isName fields =>
    have hname := (show ∀ k ∈ [Kind.structDef, .unionDef], IsSymbol k.name by decide) kind isKind
    rw [toDatum_ofFields, datumOf_record isKind]
    simpa [hname, isName.symbol] using fun f hf => legible_fieldDatum (fields f hf).1 (fields f hf).2.1
  | @enumDef loc name values isName items =>
    have hname : IsSymbol Kind.enumDef.name := by decide
    simpa [leaf, toDatum, datumOf, hname, Ident.text, isName.symbol] using
      fun v hv => (items v hv).legible
  | @variantDef loc name arms isName _ items =>
    have hname : IsSymbol Kind.variantDef.name := by decide
    simpa [leaf, toDatum, datumOf, hname, Ident.text, isName.symbol] using
      fun a ha => (items a ha).legible
  | @funcDef loc name isUnsafe variadic params type body isName items result isBlock _ ih =>
    have hname : IsSymbol Kind.funcDef.name := by decide
    have hparams : IsSymbol "params" := by decide
    have hbody : ∀ d, body.toBody = some d → d.Legible := by
      rcases isBlock with rfl | hblock
      · simp [toBody]
      · have hne : body ≠ .absent := by rintro rfl; cases hblock
        simpa [toBody_eq hne] using ih hne
    refine ⟨(legible_notes _).1, (Datum.legibleEntries_iff _).2 (legible_notes _).2, ?_⟩
    simpa [hname, hparams, Ident.text, isName.symbol, result.legible] using
      ⟨fun p hp => (items p hp).legible, hbody⟩
  | @aliasDef loc name type isName target =>
    have hname : IsSymbol Kind.aliasDef.name := by decide
    simp [leaf, toDatum, datumOf, hname, Ident.text, isName.symbol, target.legible]
  | @varDef kind loc name mutable type cs isKind isName notMut declared count _ ih =>
    have hname := (show ∀ k ∈ [Kind.varDef, .staticDef, .constDef], IsSymbol k.name by decide) kind
      isKind
    rw [toDatum_ofChildren, datumOf_variable isKind]
    cases mutable <;> simpa [hname, hmut, isName.symbol, declared.legible] using ih
  | @int loc integer type fits declared =>
    have hname : IsSymbol "int" := by decide
    have hint := isInteger_toString integer
    rw [leaf, toDatum, toData, toComponents, toBody, datumOf_int]
    split
    · exact Datum.legible_integer.2 hint
    · simp only [Datum.legible_ofItems, List.forall_mem_cons, Datum.legible_symbol,
        Datum.legible_integer]
      exact ⟨hname, declared.legible, hint, by simp⟩
  | @float loc s real =>
    have hname : IsSymbol Kind.float.name := by decide
    simpa [leaf, toDatum, datumOf, hname] using Text.nul_not_mem_of_isReal real
  | str isText => simpa [leaf, toDatum, datumOf] using htext _ isText
  | @bool loc truth =>
    have htruth : IsSymbol "true" ∧ IsSymbol "false" := by decide
    cases truth <;> simp [leaf, toDatum, datumOf, htruth]
  | ident isWord => simpa [leaf, toDatum, datumOf, Ident.text] using hword _ isWord
  | @binary kind loc operator a b isKind isOp _ _ iha ihb =>
    have hname := (show ∀ k ∈ [Kind.binary, .assign], IsSymbol k.name by decide) kind isKind
    rw [toDatum_ofChildren, datumOf_binary isKind]
    simp [hname, hop _ isOp, iha, ihb]
  | @unary loc operator a isOp _ ih =>
    have hname : IsSymbol Kind.unary.name := by decide
    rw [toDatum_ofChildren]
    simp [datumOf, hname, hop _ isOp, ih]
  | @ref loc mutable a _ ih =>
    have hname : IsSymbol Kind.ref.name := by decide
    rw [toDatum_ofChildren]
    cases mutable <;> simp [datumOf, hname, hmut, ih]
  | @call loc name cs isName _ ih =>
    have hname : IsSymbol Kind.call.name := by decide
    rw [toDatum_ofChildren]
    simpa [datumOf, hname, Ident.text, isName.symbol] using ih
  | @namedCall loc name fs isName keys _ ih =>
    rw [toDatum_ofFields]
    exact legible_pair .call (by decide) (Datum.legible_symbol.2 isName.symbol)
      (legible_components keys ih)
  | @lit loc name fs isName keys _ ih =>
    rw [toDatum_ofFields]
    exact legible_pair .lit (by decide) (Datum.legible_symbol.2 isName.symbol)
      (legible_components keys ih)
  | @access kind loc a b isKind _ _ iha ihb =>
    have hname := (show ∀ k ∈ [Kind.dot, .path], IsSymbol k.name by decide) kind isKind
    rw [toDatum_ofChildren, datumOf_access isKind]
    simp [hname, iha, ihb]
  | @cast loc type a target _ ih =>
    have hname : IsSymbol Kind.cast.name := by decide
    rw [toDatum_ofChildren]
    simp [datumOf, hname, ih, target.legible]
  | @literal loc type fs declared keys _ ih =>
    rw [toDatum_ofFields]
    exact legible_pair .literal (by decide) declared.legible (legible_components keys ih)
  | @typedCall loc type path cs result callee _ ih =>
    have hname : IsSymbol Kind.typedCall.name := by decide
    rw [toDatum_ofChildren]
    simpa [datumOf, hname, result.legible, TreeReader.joinPath_names, callee.symbol] using ih
  | @namedTypedCall loc type path fs result callee keys _ ih =>
    have hname : IsSymbol Kind.typedCall.name := by decide
    have hmap := legible_components keys ih
    rw [toDatum_ofFields]
    simpa only [datumOf, if_true, Datum.legible_ofItems, List.forall_mem_cons, TreeReader.joinPath_names,
      Datum.legible_symbol, List.not_mem_nil, false_implies, implies_true, and_true] using
      ⟨hname, result.legible, callee.symbol, hmap⟩

/-! ## Whole programs -/

/-- A list that starts with `program` is read as a program of its parts. -/
theorem TreeReader.readNode_program {unit : String} {p q notes marks args} {n : Node}
    (h : readNode unit (.list p notes (.atom q marks .symbol "program" :: args)) = .ok n) :
    n.head.kind = .program ∧ readNodes unit args = .ok n.children := by
  unfold readNode at h
  dsimp only at h
  rw [show Kind.ofName "program" = .program by decide] at h
  dsimp only at h
  split at h
  · obtain ⟨cs, hcs, hn⟩ := bind_eq_ok.1 h
    cases hn
    exact ⟨rfl, hcs⟩
  · cases h

namespace Node

theorem kind?_unplaced (n : Node) : n.unplaced.kind? = n.kind? := by
  cases n <;> rfl

/-- A program is written as a list, its parts on lines of their own. -/
theorem render_program {h : Head} {cs : List Node} {fs b} (hk : h.kind = .program) :
    (mk h cs fs b).render =
      String.ofList ('(' :: ("program".toList ++
        Datum.spaced ['\n', ' ', ' '] (cs.map toDatum) ++ [')'])) := by
  rw [← String.toList_inj, render, if_pos hk, toData_eq_map]
  simp [Datum.spaced, String.toList_join, List.flatMap_map]

theorem toDatum_program {h : Head} {cs : List Node} {fs b} (hk : h.kind = .program) :
    (mk h cs fs b).toDatum = .ofItems (.symbol "program" :: cs.map toDatum) := by
  rw [toDatum, datumOf, toData_eq_map]
  simp [hk, Kind.name]

/-- The text of a program is read as the list of its parts. -/
theorem read_render_program {h : Head} {cs : List Node} (fs : List (Component Node)) (b : Node)
    (hk : h.kind = .program) (hcs : ∀ c ∈ cs, c.toDatum.Legible) :
    ∃ p q ds, Datum.read (mk h cs fs b).render =
        .ok (.list p [] (.atom q [] .symbol "program" :: ds)) ∧
      ds.map Datum.unplaced = (cs.map toDatum).map Datum.unplaced := by
  have hsep : ∀ c ∈ ['\n', ' ', ' '], isBlank c = true := by
    simp only [List.forall_mem_cons]
    exact ⟨by decide, by decide, by decide, by simp⟩
  have hds : ∀ d ∈ cs.map toDatum, d.Legible := by simpa using hcs
  obtain ⟨d, hread, hd⟩ :=
    Datum.read_spaced (show IsSymbol "program" by decide) hsep (by simp) hds
  have hform : d.unplaced = (Datum.ofItems (.symbol "program" :: cs.map toDatum)).unplaced := by
    rw [hd]
    simp [Datum.ofItems, Datum.symbol, Datum.unplaced]
  obtain ⟨p, q, ds, rfl, hsame⟩ := Datum.unplaced_eq_form hform
  exact ⟨p, q, ds, by rw [render_program hk, hread], hsame⟩

/-- A program that is written as a formed tree would be is read as that tree. -/
theorem read_of_toDatum {n n₀ : Node}
    {size : Nat → Prop} (h : n₀.Formed IsSymbol IsIdentifier IsText size)
    (hk : n.kind? = some .program) (hn : n.toDatum = n₀.toDatum) (unit : String) :
    ∃ n', Node.read n.render unit = .ok n' ∧ n'.unplaced = n₀.unplaced := by
  cases n with
  | absent => cases hk
  | mk g cs fs b =>
    have hkind : g.kind = .program := Option.some.inj hk
    have hlegible := h.legible (fun _ hs => hs) (fun _ hs => hs.symbol) (fun _ hs => hs)
    rw [toDatum_program hkind] at hn
    rw [← hn, Datum.legible_ofItems, List.forall_mem_cons, List.forall_mem_map] at hlegible
    obtain ⟨p, q, ds, hread, hds⟩ := read_render_program fs b hkind hlegible.2
    obtain ⟨n', hnode, hsame⟩ : ∃ n', TreeReader.readNode unit
        (.list p [] (.atom q [] .symbol "program" :: ds)) = .ok n' ∧ n'.unplaced = n₀.unplaced :=
      TreeReader.readsBack_of_formed h _ (by
        rw [← hn]
        simp [Datum.ofItems, Datum.symbol, Datum.unplaced, hds])
    refine ⟨n', ?_, hsame⟩
    rw [Node.read, hread]
    dsimp only
    rw [TreeReader.readProgram, hnode]
    exact if_pos (TreeReader.readNode_program hnode).1

end Node

/-- An unsafe function in a module, whose body declares a mutable variable called `mut`:

    (module m
      (fn ^{unsafe: true} f (params (x (ref a::S))) _
        (block (var mut mut (tuple i8 ()) (typed-call _ a::g {key: (dot x mut)})))))
-/
def sampleProgram : Node :=
  .ofChildren { kind := .program, loc := {} }
    [.ofChildren { kind := .moduleDef, loc := {}, name := .name "m" }
      [.mk
        { kind := .funcDef, loc := {}, name := .name "f", isUnsafe := true, variadic := false,
          params := [⟨.name "x", .ref (.custom (["a", "S"].map .name)) false, false, {}⟩],
          type := .unknown } [] []
        (.ofChildren { kind := .block, loc := {} }
          [.ofChildren
            { kind := .varDef, loc := {}, name := .name "mut", mutable := true,
              type := .tuple [.basic .i8, .unit] }
            [.ofFields
              { kind := .typedCall, loc := {}, type := .unknown, path := ["a", "g"].map .name,
                named := true }
              [⟨.name "key", .unknown,
                .ofChildren { kind := .dot, loc := {} }
                  [.leaf { kind := .ident, loc := {}, name := .name "x" },
                   .leaf { kind := .ident, loc := {}, name := .name "mut" }], {}⟩]]])]]

theorem sampleProgram_formed :
    sampleProgram.Formed IsSymbol IsIdentifier IsText fun _ => True := by
  have hname : ∀ s ∈ ["m", "f", "x", "mut"], IsName s := by
    simp only [List.forall_mem_cons]
    exact ⟨⟨⟨by decide, by decide⟩, by decide⟩, ⟨⟨by decide, by decide⟩, by decide⟩,
      ⟨⟨by decide, by decide⟩, by decide⟩, ⟨⟨by decide, by decide⟩, by decide⟩, by simp⟩
  have hident : ∀ s ∈ ["x", "mut"], IsIdentifier s := by
    simp only [List.forall_mem_cons]
    exact ⟨⟨⟨by decide, by decide⟩, by decide, by decide⟩,
      ⟨⟨by decide, by decide⟩, by decide, by decide⟩, by simp⟩
  have haccess : (Node.ofChildren { kind := .dot, loc := {} }
      [.leaf { kind := .ident, loc := {}, name := .name "x" },
       .leaf { kind := .ident, loc := {}, name := .name "mut" }]).Formed IsSymbol IsIdentifier IsText
      fun _ => True :=
    .access (by decide) (.ident (hident "x" (by decide))) (.ident (hident "mut" (by decide)))
  refine .operands (by decide) rfl ?_
  simp only [List.mem_singleton, forall_eq]
  refine .moduleDef (hname "m" (by decide)) ?_
  simp only [List.mem_singleton, forall_eq]
  refine .funcDef (hname "f" (by decide)) ?_ .unknown (.inr rfl) fun _ => ?_
  · simp only [List.mem_singleton, forall_eq]
    exact ⟨⟨"x", rfl, hname "x" (by decide)⟩,
      .ref _ (.custom ⟨by decide, by decide⟩ (by decide) (by simp))⟩
  · refine .operands (by decide) rfl ?_
    simp only [List.mem_singleton, forall_eq]
    refine .varDef (by decide) (hname "mut" (by decide)) (by simp) ?_ (by simp) ?_
    · refine .tuple (by simp) (by simp) ?_
      simp only [List.forall_mem_cons]
      exact ⟨.basic (by simp), .unit, by simp⟩
    · simp only [List.mem_singleton, forall_eq]
      refine .namedTypedCall .unknown ⟨by decide, by decide⟩ ?_ ?_
      · simp only [List.mem_singleton, forall_eq]
        exact ⟨⟨"key", rfl, by decide⟩, rfl⟩
      · simpa only [List.mem_singleton, forall_eq] using haccess

/-- A program with one part. -/
def programOf (n : Node) : Node := .ofChildren { kind := .program, loc := {} } [n]

/-- A string with NUL in it. -/
def nulString : Node := .leaf { kind := .str, loc := {}, text := "a\x00b" }

def namelessCall : Node := .ofChildren { kind := .call, loc := {}, name := .name "_" } []

/-- A call of one segment that holds a doubled colon. -/
def joinedCall : Node := .ofChildren { kind := .typedCall, loc := {}, path := [.name "a::b"] } []

/-- What a program with one part is read as. -/
theorem read_programOf {n m : Node} {unit : String} (hlegible : n.toDatum.Legible)
    (h : Node.read (programOf n).render unit = .ok m) :
    ∃ d c, d.unplaced = n.toDatum.unplaced ∧ TreeReader.readNode unit d = .ok c ∧
      m.children = [c] := by
  obtain ⟨p, q, ds, hread, hds⟩ : ∃ p q ds, Datum.read (programOf n).render =
        .ok (.list p [] (.atom q [] .symbol "program" :: ds)) ∧
      ds.map Datum.unplaced = ([n].map Node.toDatum).map Datum.unplaced :=
    Node.read_render_program [] .absent rfl (by simpa using hlegible)
  obtain ⟨d, rfl, hd⟩ := Datum.unplaced_eq_one hds
  rw [Node.read, hread] at h
  obtain ⟨m', hm', hend⟩ := TreeReader.bind_eq_ok.1 h
  obtain ⟨hkind, hparts⟩ := TreeReader.readNode_program hm'
  rw [if_pos hkind] at hend
  cases hend
  obtain ⟨c, hc, hrest⟩ := TreeReader.bind_eq_ok.1 hparts
  obtain ⟨cs, hcs, hlist⟩ := TreeReader.bind_eq_ok.1 hrest
  cases hcs
  exact ⟨d, c, hd, hc, (Except.ok.inj hlist).symm⟩

/-- A text with a fault is not read. -/
theorem Datum.read_of_fault {src : String} (h : (Scan.ofText src).fault.isSome = true) (d : Datum) :
    Datum.read src ≠ .ok d := by
  intro hread
  unfold Datum.read Scan.datum at hread
  split at hread
  · cases hread
  · split at hread
    · cases hread
    · rename_i hnone
      simp [hnone] at h

theorem read_nulString (unit : String) (n : Node) :
    Node.read (programOf nulString).render unit ≠ .ok n := by
  have hfault : (Scan.ofText "(program\n  \"a\x00b\")").fault.isSome = true := by cbv
  intro hread
  rw [show (programOf nulString).render = "(program\n  \"a\x00b\")" from rfl, Node.read] at hread
  split at hread
  · cases hread
  · rename_i d hd
    exact Datum.read_of_fault hfault d hd

theorem paths_unplaced (n : Node) :
    n.unplaced.children.map (·.head.path) = n.children.map (·.head.path) := by
  cases n with
  | absent => rfl
  | mk h cs fs b =>
    simp only [Node.unplaced, Node.children, Node.unplacedAll_eq_map, List.map_map]
    refine List.map_congr_left fun c _ => ?_
    cases c <;> rfl

end TreeSema
