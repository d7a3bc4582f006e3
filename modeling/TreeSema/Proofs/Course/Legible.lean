import TreeSema.Proofs.Course.Resolve
import TreeSema.Proofs.Course.Stmt
import TreeSema.Proofs.RoundTrip.Legible
import TreeSema.Proofs.RoundTrip.Reread

/-!
# The outcome of an analysis can be read

Analysis writes into a tree what it has in its table: paths of definitions, results of functions,
numbers of enum values and of arms. The names and types come from the declarations in the tree, and
the numbers are checked to be small. So all of it can be written if the tree comes from a text.

* `Symbols.Writable`: what a table holds can be written.
* `legible_of_spells`: what takes the place of a chain is legible.
* `staysLegible_carried`: what analysis makes of a tree from a text is legible.
* `read_render_analyzeBy`: the text of an outcome is read, and what is read has the same text.
-/
namespace TreeSema

open Text (fits64)

/-! ## Tables -/

/-- What analysis takes from an entry can be written. -/
def Entry.Writable (e : SymbolEntry) : Prop :=
  match e.kind with
  | .func sig => sig.result.Readable
  | .enumDef d => e.name.Is IsName ∧ d.Small
  | .variantDef d => ∀ arm m, d.arms.get? arm = some m → m.owner.Is IsName
  | _ => True

namespace Symbols

variable {e : SymbolEntry} {path : List Ident} {t : Symbols}

/-- What analysis takes from a table, and from the tables of its modules, can be written. -/
inductive Writable : Symbols → Prop
  | intro {t : Symbols} (entries : ∀ e, t.Holds e → e.Writable)
      (modules : ∀ e body, t.Holds e → e.kind = .moduleDef (some body) → Writable body.get) :
    Writable t

namespace Writable

variable {t t' : Symbols}

theorem entries (h : t.Writable) (he : t.Holds e) : e.Writable := by
  cases h with
  | intro entries _ => exact entries e he

theorem modules (h : t.Writable) {body : ModuleBody} (he : t.Holds e)
    (hk : e.kind = .moduleDef (some body)) : Writable body.get := by
  cases h with
  | intro _ modules => exact modules e body he hk

theorem empty : Writable .empty :=
  .intro (fun _ he => absurd he Table.not_holds_empty) fun _ _ he => absurd he Table.not_holds_empty

/-- A table that holds only entries of another one, or such that can be written themselves. -/
theorem extend (h : t.Writable) (hentries : ∀ e, t'.Holds e → t.Holds e ∨
      e.Writable ∧ ∀ body, e.kind = .moduleDef (some body) → Writable body.get) : t'.Writable := by
  refine .intro (fun e he => ?_) fun e body he hk => ?_
  · rcases hentries e he with he | ⟨he, -⟩
    · exact h.entries he
    · exact he
  · rcases hentries e he with he | ⟨-, hmodule⟩
    · exact h.modules he hk
    · exact hmodule body hk

theorem insert (h : t.Writable) (he : e.Writable)
    (hmodule : ∀ body, e.kind = .moduleDef (some body) → Writable body.get) :
    Writable (t.insert e) := by
  refine h.extend fun d hd => ?_
  rcases hd.of_insert with rfl | hd
  · exact .inr ⟨he, hmodule⟩
  · exact .inl hd

/-- Nothing that variables hold is written. -/
theorem touched (h : t.Writable) (ht : t.Touched t') : t'.Writable := by
  refine h.extend fun e' he' => ?_
  obtain ⟨e, he, htouched⟩ := ht.holds he'
  by_cases hvar : ∃ v, e.kind = .var v
  · obtain ⟨v, hv⟩ := hvar
    obtain ⟨v', hv'⟩ := htouched.var hv
    simp [Entry.Writable, hv']
  · rw [htouched.eq (not_exists.1 hvar)]
    exact .inl he

/-- A definition that a path leads to can be written, and is named by the last segment. -/
theorem of_finds (hfinds : t.Finds path e) (h : t.Writable)
    (hproper : e.Proper) : e.Writable ∧ path.getLast? = some e.name := by
  induction hfinds with
  | here hd => exact ⟨h.entries (Table.holds_of_lookup hd), by simp [Table.name_of_lookup hd]⟩
  | module hd hk hrest ih =>
    obtain ⟨hwritable, hlast⟩ := ih (h.modules (Table.holds_of_lookup hd) hk) hproper
    exact ⟨hwritable, by rw [List.getLast?_cons_of_ne_nil hrest.ne_nil, hlast]⟩
  | member _ howns => exact absurd hproper howns.not_proper
  | past _ _ hrest ih =>
    obtain ⟨hwritable, hlast⟩ := ih h hproper
    exact ⟨hwritable, by rw [List.getLast?_cons_of_ne_nil hrest.ne_nil, hlast]⟩

end Writable

theorem mem_of_mem_modulesOf {x} (hx : x ∈ t.modulesOf path) : x ∈ path := by
  unfold modulesOf at hx
  fun_induction Table.modulesBy ModuleBody.get t path with
  | case5 t name rest _ e _ body _ ih =>
    rcases List.mem_cons.1 hx with rfl | hx
    · exact .head _
    · exact .tail _ (ih hx)
  | case8 t name rest _ e _ _ _ _ _ ih => exact .tail _ (ih hx)
  | _ => cases hx

/-- A canonical path has no other segments than the path. -/
theorem mem_of_mem_canonical {x} (hx : x ∈ t.canonical path) : x ∈ path := by
  rcases List.mem_append.1 hx with hx | hx
  · exact mem_of_mem_modulesOf hx
  · exact List.mem_of_getLast? (Option.mem_toList.1 hx)

theorem getLast?_canonical (hne : path ≠ []) : (t.canonical path).getLast? = path.getLast? := by
  obtain ⟨x, hx⟩ := Option.isSome_iff_exists.1 (List.getLast?_isSome.2 hne)
  rw [canonical, Table.canonicalBy, hx]
  simp

theorem canonical_ne_nil (hne : path ≠ []) : t.canonical path ≠ [] := by
  intro hnil
  have hlast := getLast?_canonical (t := t) hne
  rw [hnil, List.getLast?_nil, eq_comm, List.getLast?_eq_none_iff] at hlast
  exact hne hlast

end Symbols

namespace Analysis

variable {s s' : State} {h : Head} {size : Nat → Prop}

/-! ## Declarations -/

/-- The nodes of a tree from a text of which all words can be written. -/
abbrev Spelled (size : Nat → Prop) : Node → Prop := Node.Formed IsSymbol IsSegment IsText size

section Declarations

variable {cs : List Node} {fs : List (Component Node)} {b : Node}

theorem Introduces.writable {e : SymbolEntry} (he : Introduces h e)
    (hn : Spelled size (.mk h cs fs b)) : e.Writable := by
  cases he with
  | enumDef hk hd => exact ⟨hn.declaration.1 (.inl hk), hd⟩
  | func hk params flags => exact hn.declaration.2 hk
  | _ => trivial

theorem Registers.writable (hr : Registers s h s') (hn : Spelled size (.mk h cs fs b))
    (hs : s.table.Writable) : s'.table.Writable := by
  cases hr with
  | entry _ he => exact hs.insert (he.writable hn) fun body hk => absurd hk (he.not_module _)
  | @variant d _ _ _ hk hd _ hstructs =>
    have hvariant : Entry.Writable (.definition h.name (.variantDef d) h.loc) := by
      intro arm m hm
      rcases hd.arms arm m hm with hnone | ⟨howner, -⟩
      · cases hnone
      · exact howner ▸ hn.declaration.1 (.inr hk)
    refine (hs.insert hvariant fun body hk => by cases hk).extend fun e he => ?_
    rcases hstructs.of_holds he with he | he
    · -- the structs of the arms
      obtain ⟨arm, fields, loc, rfl⟩ := hd.entries e he
      exact .inr ⟨trivial, fun body hk => by cases hk⟩
    · exact .inl he

end Declarations

/-! ## What takes the place of a chain -/

section Chains

variable {path : List Ident} {tail : Option Node} {e : SymbolEntry}
  (hchain : Chain.Formed IsSymbol IsText size ⟨path, tail⟩)

include hchain

/-- What is made of the nodes at the end of a chain is legible. -/
theorem legible_of_part {v : Node} (h : ∃ c ∈ partsOf tail, StaysLegible size c v) : v.Legible := by
  obtain ⟨c, hc, hv⟩ := h
  refine hv.legible ?_
  cases tail with
  | none => cases hc
  | some n =>
    obtain ⟨hn, hgiven⟩ := hchain.given n rfl
    rcases List.mem_append.1 hc with hc | hc
    · exact hn.children c hc
    · obtain ⟨f, hf, rfl⟩ := List.mem_map.1 hc
      exact (hgiven f hf).2

theorem is_of_namedBy {f : Component Node} (h : NamedBy tail f) : f.name.Is IsSymbol := by
  rcases h with ⟨i, hi⟩ | ⟨g, hg, hgf⟩
  · exact hi ▸ is_componentName i
  · cases tail with
    | none => cases hg
    | some n => exact hgf ▸ ((hchain.given n rfl).2 g hg).1

theorem segments_canonical (t : Symbols) : ∀ x ∈ t.canonical path, x.Is IsSegment :=
  fun x hx => hchain.segments x (Symbols.mem_of_mem_canonical hx)

theorem segments_owner (t : Symbols) : ∀ x ∈ t.canonical path.dropLast, x.Is IsSegment :=
  fun x hx => hchain.segments x (List.mem_of_mem_dropLast (Symbols.mem_of_mem_canonical hx))

omit hchain in
/-- The definition that a value of an enum or an arm of a variant belongs to. -/
theorem owner_of_resolve (hs : Fit (·.table.Writable) s) (he : s.table.resolve path = some e)
    (hirregular : ¬ e.Regular) :
    ∃ d : SymbolEntry, d.Writable ∧ d.Owns (path.getLastD .missing) e ∧
      path.dropLast.getLast? = some d.name := by
  obtain ⟨d, hfinds, howns⟩ := (Symbols.finds_of_resolve he).owner hs.sound hirregular
  obtain ⟨hwritable, hlast⟩ := Symbols.Writable.of_finds hfinds hs.inv howns.proper
  exact ⟨d, hwritable, howns, hlast⟩

omit hchain in
/-- A value of an enum is found by the name of the enum, and its number can be written. -/
theorem enumValue_of_resolve (hs : Fit (·.table.Writable) s) (he : s.table.resolve path = some e)
    {owner} {value : Int} (hk : e.kind = .enumValue owner value) :
    (∃ name, path.dropLast.getLast? = some (.name name) ∧ IsName name) ∧ fits64 value = true := by
  have hirregular : ¬ e.Regular := by simp [Entry.Regular, hk]
  obtain ⟨d, hd, howns, hlast⟩ := owner_of_resolve hs he hirregular
  rcases howns with ⟨body, hdk, hentry⟩ | ⟨body, -, hentry⟩
  · obtain ⟨m, hm, rfl⟩ := Option.map_eq_some_iff.1 hentry
    cases hk
    simp only [Entry.Writable, hdk] at hd
    obtain ⟨⟨name, hname, hisName⟩, hsmall⟩ := hd
    have hfits := hsmall _ m hm
    simp only [fits32, fits64, Bool.and_eq_true, decide_eq_true_eq] at hfits ⊢
    exact ⟨⟨name, hname ▸ hlast, hisName⟩, by omega⟩
  · obtain ⟨m, -, rfl⟩ := Option.map_eq_some_iff.1 hentry
    cases hk

omit hchain in
/-- An arm of a variant is found by the path of the variant, whose name can be written. -/
theorem variantArm_of_resolve (hs : Fit (·.table.Writable) s) (he : s.table.resolve path = some e)
    {owner : Ident} {payload} {ordinal : Int} (hk : e.kind = .variantArm owner payload ordinal) :
    path.dropLast ≠ [] ∧ owner.Is IsName := by
  have hirregular : ¬ e.Regular := by simp [Entry.Regular, hk]
  obtain ⟨d, hd, howns, hlast⟩ := owner_of_resolve hs he hirregular
  refine ⟨fun hnil => by simp [hnil] at hlast, ?_⟩
  obtain ⟨body, hdk, -, hm⟩ := howns.variantArm hk
  simp only [Entry.Writable, hdk] at hd
  exact hd _ _ hm

/-- What takes the place of a chain from a text is legible. -/
theorem legible_of_spells {t} {n : Node} (hs : Fit (·.table.Writable) s)
    (he : s.table.resolve path = some e)
    (h : Spells t path tail (fun v => ∃ c ∈ partsOf tail, StaysLegible size c v) e n) :
    n.Legible := by
  have hne := (Symbols.finds_of_resolve he).ne_nil
  have hcanonical := segments_canonical hchain t
  have hbuilt : ∀ {built : List (Component Node)},
      (∀ f ∈ built, NamedBy tail f ∧ ∃ c ∈ partsOf tail, StaysLegible size c f.value) →
      ∀ f ∈ built, f.name.Is IsSymbol ∧ f.value.Legible := fun hparts f hf =>
    ⟨is_of_namedBy hchain (hparts f hf).1, legible_of_part hchain (hparts f hf).2⟩
  cases h with
  | number hk =>
    obtain ⟨⟨name, hlast, hname⟩, hfits⟩ := enumValue_of_resolve hs he hk
    have howner : path.dropLast ≠ [] := fun hnil => by simp [hnil] at hlast
    refine Node.legible_number hfits (Symbols.canonical_ne_nil howner) (segments_owner hchain t) ?_
    -- `_` would be read as a type that is left open
    intro hunknown
    rw [← Symbols.getLast?_canonical (t := t) howner, hunknown] at hlast
    cases hlast
    exact hname.named rfl
  | record _ hparts =>
    obtain ⟨type, htype, hsame, -⟩ := exists_readable (Symbols.canonical_ne_nil hne) hcanonical
    exact Node.legible_literal htype hsame (hbuilt hparts)
  | @arm _ _ _ ordinal _ hk hsmall hparts =>
    obtain ⟨howner, ⟨name, rfl, hname⟩⟩ := variantArm_of_resolve hs he hk
    have hfits : fits64 ordinal = true := by
      simp only [fitsUnsigned32, fits64, Bool.and_eq_true, decide_eq_true_eq] at hsmall ⊢
      omega
    have harm : (path.getLastD .missing).Is IsSegment := by
      rw [List.getLastD_eq_getLast?, List.getLast?_eq_some_getLast hne]
      exact hchain.segments _ (List.getLast_mem hne)
    have hsegments := segments_owner hchain t
    refine Node.legible_encodeArm (Symbols.canonical_ne_nil howner) hsegments (by simp) ?_
      (harm.imp fun _ h => ⟨h.1, h.2.symbol⟩) hfits (hbuilt hparts)
    refine List.forall_mem_append.2 ⟨fun x hx => hsegments x (List.mem_of_mem_dropLast hx), ?_⟩
    simpa using is_payloadStruct ⟨name, rfl, hname.toIsSegment⟩ harm
  | call hk hparts =>
    have hproper : e.Proper := by simp [Entry.Proper, hk]
    have hresult := (Symbols.Writable.of_finds (Symbols.finds_of_resolve he) hs.inv hproper).1
    simp only [Entry.Writable, hk] at hresult
    have hmodules : ∀ x ∈ t.modulesOf path, x.Is IsSegment := fun x hx =>
      hchain.segments x (Symbols.mem_of_mem_modulesOf hx)
    exact Node.legible_typedCall (hresult.qualify hmodules) (Symbols.canonical_ne_nil hne)
      hcanonical fun a ha => legible_of_part hchain (hparts a ha)

end Chains

/-! ## Every run -/

/-- What analysis makes of an expression from a text is legible. -/
theorem staysLegible_rewriting (hs : Fit (·.table.Writable) s) (size : Nat → Prop) :
    Rewriting s.Touches (StaysLegible size) where
  refl := .refl
  keep hcs hfs hb := .keep hcs hfs hb
  replace hkind hchain _ hmeant := by
    obtain ⟨s₁, s₂, e, h₁, -, he, hspells⟩ := hmeant
    refine ⟨fun hn => ?_, fun hnot => ?_⟩
    · have hfit : Fit (·.table.Writable) s₁ := ⟨hs.sound.touched h₁.table, hs.inv.touched h₁.table⟩
      exact legible_of_spells ((Node.chain?_eq_some_iff.1 hchain).formed hn) hfit he hspells
    · rw [hnot] at hkind
      cases hkind

/-- What analysis makes of a tree from a text is legible. -/
theorem staysLegible_carried (cfg : Config) (size : Nat → Prop) :
    Carried cfg (Spelled size) (·.table.Writable) fun _ => StaysLegible size where
  init := .empty
  touch hs ht := hs.inv.touched ht.table
  enter _ hs := hs.inv.extend fun _ he => .inl he.of_enter
  exit hs := hs.inv.extend fun _ he => .inl he.of_exit
  bound _ _ _ hs _ := hs.inv.insert trivial nofun
  declare hn hs hr := hr.writable hn hs.inv
  module _ hs _ hr _ := hs.inv.insert trivial (by rintro _ ⟨⟩; exact hr.inv)
  operands hn := hn.children
  bodies {h cs fs b} hn c hc := by
    cases b with
    | absent => cases hc
    | mk => exact (hn.body nofun).children c hc
  later _ h := h
  same _ := .refl _
  expr k n expected s _ hs :=
    (exprAt_relates (touches_stable s) (staysLegible_rewriting hs _) cfg k n expected s (.refl s)).2
  keep _ _ hcs := .ofOperands hcs
  function _ _ hcs :=
    .keep (StaysLegible.refl_all _) (StaysLegible.refl_components _) (.withChildren hcs)
  accepted _ _ _ _ _ _ hcs := .ofOperands hcs
  rejected _ _ _ _ hcs := .ofOperands hcs

/-- A program from a text stays a program and is legible in every outcome. -/
theorem legible_analyzeBy {src unit : String} {tree : Node} (hread : Node.read src unit = .ok tree)
    (hwords : tree.Every (Node.Worded IsSymbol IsSymbol)) (cfg : Config) (schedule : Schedule) :
    (tree.analyzeBy schedule cfg).tree.Legible ∧
      (tree.analyzeBy schedule cfg).tree.kind? = some .program := by
  have hspelled : Spelled (· ≤ src.length) tree := (Node.sourced_of_read hread).1.reworded hwords
    fun _ hcolon hsymbol => isSegment_of_colon_not_mem hsymbol hcolon
  have hkind := Node.kind?_of_read hread
  have hends := program_ends (staysLegible_carried cfg _) schedule tree hspelled.children
  have hstays : StaysLegible (· ≤ src.length) tree (tree.analyzeBy schedule cfg).tree := by
    rw [analyzeBy_eq]
    rcases hends.post with hsame | ⟨-, cs', hsame, hcs⟩
    · rw [hsame]
      exact .refl tree
    · rw [hsame]
      exact .withChildren hcs
  exact ⟨hstays.legible hspelled, (hstays.kind (by rw [hkind]; rfl)).trans hkind⟩

/-- The outcome of an analysis can be read again, whatever was reported: if a text is read as a tree
whose operators are symbols and whose identifiers are symbols one by one, then the text of the
analysed tree is read, and what is read has the very same text. -/
theorem read_render_analyzeBy {src unit : String} {tree : Node}
    (hread : Node.read src unit = .ok tree) (hwords : tree.Every (Node.Worded IsSymbol IsSymbol))
    (cfg : Config) (schedule : Schedule) (unit' : String) :
    ∃ tree', Node.read (tree.analyzeBy schedule cfg).tree.render unit' = .ok tree' ∧
      tree'.render = (tree.analyzeBy schedule cfg).tree.render := by
  obtain ⟨hlegible, hkind⟩ := legible_analyzeBy hread hwords cfg schedule
  exact hlegible.read_render hkind unit'

/-- The value of an enum called `i32` becomes a number whose type is read as the basic one, and the
segment `true` is read as a truth value. -/
theorem read_render_analyzeBy_basicNames :
    ∃ tree, Node.read "(program (enum i32 (value a)) (unary \"-\" i32::a) true::b)" "" = .ok tree ∧
      tree.Every (Node.Worded IsSymbol IsSymbol) ∧
      ∃ tree', Node.read (tree.analyzeBy .written {}).tree.render "" = .ok tree' ∧
        tree'.render = (tree.analyzeBy .written {}).tree.render := by
  have hread : Node.read "(program (enum i32 (value a)) (unary \"-\" i32::a) true::b)" "" = .ok
      (.ofChildren { kind := .program, loc := ⟨"", 1, 1⟩ }
        [.leaf
          { kind := .enumDef, loc := ⟨"", 1, 10⟩, name := .name "i32",
            values := [⟨.name "a", 0, false, ⟨"", 1, 20⟩⟩] },
         .ofChildren { kind := .unary, loc := ⟨"", 1, 31⟩, op := "-" }
          [Node.identPath "i32" "a" ⟨"", 1, 42⟩],
         Node.identPath "true" "b" ⟨"", 1, 50⟩]) := by cbv
  have hminus : IsSymbol "-" := by decide
  have hi32 : IsSymbol "i32" := by decide
  have ha : IsSymbol "a" := by decide
  have htrue : IsSymbol "true" := by decide
  have hb : IsSymbol "b" := by decide
  refine ⟨_, hread, (fun hworded =>
    ⟨hworded, read_render_analyzeBy hread hworded {} .written ""⟩) ?_⟩
  simp only [Node.ofChildren, Node.identPath, Node.leaf, Node.every_mk, List.forall_mem_cons,
    List.not_mem_nil, false_implies, implies_true, Node.every_absent, and_true]
  refine ⟨⟨?_, ?_⟩, ⟨?_, ?_⟩, ⟨⟨?_, ?_⟩, ⟨?_, ?_⟩, ⟨?_, ?_⟩, ⟨?_, ?_⟩⟩,
    ⟨?_, ?_⟩, ⟨?_, ?_⟩, ⟨?_, ?_⟩⟩
  all_goals simp [Node.kind?, Node.head, Ident.text, hminus, hi32, ha, htrue, hb]

end Analysis

end TreeSema
