import TreeSema.Proofs.Position
import TreeSema.Proofs.RoundTrip.Tree

/-!
# Trees that were read are formed

Whatever the reader of trees accepts is built by the rules of trees. What it does not check is that
an operator, which can be given as a string, and the segments of a qualified name are symbols by
themselves.

* `Node.sourced_of_read`: a tree that was read is formed.
* `Node.read_wellFormed`: every node of a tree that was read has the shape of its kind.
-/
namespace TreeSema

open Text (Pos fits64 int64? isReal)

/-! ## Segments of a symbol -/

variable {text : String} {p : Pos} {notes : List (String × Datum)} {ds : List Datum}
  {d type : Datum} {loc : Location}

theorem intercalate_splitSegments (cs : List Char) :
    [':', ':'].intercalate (splitSegments cs) = cs := by
  fun_induction splitSegments cs with
  | case1 => rfl
  | case2 cs ih => rw [List.intercalate_cons_of_ne_nil (splitSegments_ne_nil cs), ih]; rfl
  | case3 c cs _ hnil ih => exact absurd hnil (splitSegments_ne_nil cs)
  | case4 c cs _ s ss hs ih =>
    rw [hs] at ih
    rw [← ih, intercalate_cons, intercalate_cons, List.cons_append]

theorem intercalate_segments (s : String) : "::".intercalate (segments s) = s := by
  rw [← String.toList_inj, String.toList_intercalate, segments, List.map_map]
  simpa [Function.comp_def] using intercalate_splitSegments s.toList

theorem colon_not_mem_splitSegments {cs : List Char} (h : symbolRest cs = cs) :
    ∀ s ∈ splitSegments cs, ':' ∉ s := by
  fun_induction symbolRest cs with
  | case1 cs ih =>
    simp only [List.cons.injEq, true_and] at h
    simpa [splitSegments] using ih h
  | case2 c cs hne hc ih =>
    have hcolon : c ≠ ':' := by
      rintro rfl
      exact absurd hc (by decide)
    simp only [List.cons.injEq, true_and] at h
    obtain ⟨s, ss, hs, hcons⟩ := splitSegments_cons hcolon cs
    have hall := ih h
    rw [hs, List.forall_mem_cons] at hall
    rw [hcons, List.forall_mem_cons]
    exact ⟨by simp [hcolon.symm, hall.1], hall.2⟩
  | case3 => cases h
  | case4 => simp [splitSegments]

/-- A symbol has no single colons, so its segments have none. -/
theorem colon_not_mem_segments {s : String} (h : IsSymbol text) (hs : s ∈ segments text) :
    ':' ∉ s.toList := by
  obtain ⟨cs, hcs, rfl⟩ := List.mem_map.1 hs
  simpa using colon_not_mem_splitSegments h.symbolRest_self cs hcs

theorem Datum.Legible.items (h : (Datum.list p notes ds).Legible) : ∀ d ∈ ds, d.Legible :=
  (legibleAll_iff ds).1 h.2.2

theorem Datum.Legible.entries {es} (h : (Datum.map p notes es).Legible) :
    ∀ e ∈ es, IsSymbol e.1 ∧ e.2.Legible :=
  (legibleEntries_iff es).1 h.2

namespace TreeReader

variable {unit : String}

/-! ## What is read has a property -/

/-- Whatever is read has the property. -/
def Gives {α : Type} (m : Read α) (P : α → Prop) : Prop := ∀ a, m = .ok a → P a

namespace Gives

variable {α β : Type} {P : α → Prop} {Q : β → Prop}

theorem ok {a : α} (h : P a) : Gives (.ok a) P := by
  rintro _ ⟨⟩
  exact h

theorem pure {a : α} (h : P a) : Gives (Pure.pure a) P := ok h

theorem fail {fault} : Gives (TreeReader.fail unit p fault) P :=
  fun _ h => (fail_eq_ok.1 h).elim

theorem bind {m} {f : α → Read β} (hm : Gives m P) (hf : ∀ a, P a → Gives (f a) Q) :
    Gives (m >>= f) Q := by
  intro b hb
  obtain ⟨a, ha, hb⟩ := bind_eq_ok.1 hb
  exact hf a (hm a ha) b hb

theorem mapM {f : α → Read β} {xs : List α} (hf : ∀ x ∈ xs, Gives (f x) Q) :
    Gives (xs.mapM f) fun ys => (∀ y ∈ ys, Q y) ∧ ys.length = xs.length := by
  induction xs with
  | nil => exact ok ⟨nofun, rfl⟩
  | cons x xs ih =>
    obtain ⟨hx, hxs⟩ := List.forall_mem_cons.1 hf
    rw [List.mapM_cons]
    exact hx.bind fun y hy => (ih hxs).bind fun ys hys =>
      pure ⟨List.forall_mem_cons.2 ⟨hy, hys.1⟩, by simp [hys.2]⟩

end Gives

/-! ## Names, numbers and types -/

theorem readName_gives (hd : d.Legible) : Gives (readName unit d) (·.Is IsName) := by
  unfold readName
  split
  · split
    · exact .fail
    · rename_i text hname
      simp only [Bool.or_eq_true, decide_eq_true_eq, beq_iff_eq, not_or] at hname
      exact .ok ⟨text, rfl, isSegment_of_length hd.2 hname.1, hname.2⟩
  · exact .fail

theorem fits64_of_int64? {n : Int} (h : int64? text = some n) : fits64 n = true :=
  (Option.filter_eq_some_iff.1 h).2

theorem readInteger_gives (p : Pos) (text : String) :
    Gives (readInteger unit p text) (fits64 · = true) := by
  unfold readInteger
  split
  · rename_i hn
    exact .ok (fits64_of_int64? hn)
  · exact .fail

theorem readTypeName_gives (htext : IsSymbol text) :
    Gives (readTypeName unit p text) Ty.Readable := by
  unfold readTypeName
  split
  · exact .ok .unknown
  · rename_i hunknown
    split
    · rename_i b hb
      exact .ok (.basic (toString_of_ofName? hb).2)
    · rename_i hbasic
      dsimp only
      split
      · exact .fail
      · rename_i hempty
        refine .ok (.custom ⟨?_, fun s hs => colon_not_mem_segments htext hs⟩ ?_ ?_)
        · rwa [intercalate_segments]
        · rintro s hs rfl
          exact hempty (by simpa using hs)
        · intro s hs
          have heq := intercalate_segments text
          rw [hs, String.intercalate_singleton] at heq
          subst heq
          exact ⟨hunknown, hbasic⟩

/-- Types of which none is left to be inferred. -/
theorem readTypes_gives (ih : ∀ d ∈ ds, Gives (readType unit d) Ty.Readable) :
    Gives (readTypes unit ds) fun ts => (∀ t ∈ ts, t ≠ .unknown) ∧ ∀ t ∈ ts, t.Readable := by
  induction ds with
  | nil => exact .ok ⟨nofun, nofun⟩
  | cons d ds hrest =>
    obtain ⟨ihd, ihds⟩ := List.forall_mem_cons.1 ih
    unfold readTypes
    refine ihd.bind fun t ht => ?_
    split
    · exact .fail
    · rename_i hknown
      refine (hrest ihds).bind fun ts hts => .pure
        ⟨List.forall_mem_cons.2 ⟨?_, hts.1⟩, List.forall_mem_cons.2 ⟨ht, hts.2⟩⟩
      rintro rfl
      exact hknown rfl

theorem readType_gives (d : Datum) (hd : d.Legible) : Gives (readType unit d) Ty.Readable := by
  unfold readType
  split
  · exact readTypeName_gives hd.2
  · exact .ok .unit
  all_goals
    try
      rename_i p notes q marks args
      have hargs := (List.forall_mem_cons.1 hd.items).2
  · split
    · exact (readType_gives _ (hargs _ (by simp))).bind fun t ht => .pure (.ref _ ht)
    · split
      · exact (readType_gives _ (hargs _ (by simp))).bind fun t ht => .pure (.ref _ ht)
      · exact .fail
    · exact .fail
  · split
    · exact (readType_gives _ (hargs _ (by simp))).bind fun t ht => .pure (.ptr ht)
    · exact .fail
  · refine (readTypes_gives fun e he => readType_gives e (hargs e he)).bind fun ts hts => ?_
    split
    · exact .ok .unit
    · rename_i hne
      exact .ok (.tuple hne hts.1 hts.2)
  · split
    · split
      · rename_i size hsize
        obtain ⟨hfit, hnonneg⟩ := Option.filter_eq_some_iff.1 hsize
        exact (readType_gives _ (hargs _ (by simp))).bind fun t ht =>
          .pure (.array (by simpa using hnonneg) (fits64_of_int64? hfit) ht)
      · exact .fail
    · exact .fail
  · split
    · refine (readName_gives (hargs _ (by simp))).bind fun x hx => ?_
      obtain ⟨name, rfl, hname⟩ := hx
      exact (readTypes_gives fun e he => readType_gives e (hargs e (by simp [he]))).bind
        fun ts hts => .pure (.template hname hts.1 hts.2)
    · exact .fail
  · exact .fail
termination_by sizeOf d
decreasing_by
  all_goals
    subst_vars
    simp only [Datum.list.sizeOf_spec, List.cons.sizeOf_spec]
    first
      | omega
      | have := List.sizeOf_lt_of_mem he; omega

/-! ## Declarations -/

theorem readFieldDecl_gives (hd : d.Legible) : Gives (readFieldDecl unit d) FieldDecl.Formed := by
  unfold readFieldDecl
  split
  · exact (readName_gives (hd.items _ (by simp))).bind fun x hx =>
      (readType_gives _ (hd.items _ (by simp))).bind fun t ht => .pure ⟨hx, ht⟩
  · exact .fail

theorem readEnumValue_gives (hd : d.Legible) : Gives (readEnumValue unit d) EnumItem.Formed := by
  unfold readEnumValue
  split
  · exact (readName_gives (hd.items _ (by simp))).bind fun x hx => .pure ⟨hx, rfl, fun _ => rfl⟩
  · refine (readName_gives (hd.items _ (by simp))).bind fun x hx => ?_
    split
    · exact (readInteger_gives _ _).bind fun n hn => .pure ⟨hx, hn, nofun⟩
    · exact .fail
  · exact .fail

theorem readArm_gives (hd : d.Legible) : Gives (readArm unit d) Arm.Formed := by
  have hcontents : ∀ e ∈ d.contents, e.Legible := by
    cases d with
    | list p notes ds => exact hd.items
    | array p notes ds => exact (Datum.legibleAll_iff ds).1 hd.2
    | map p notes es => exact List.forall_mem_map.2 fun e he => (hd.entries e he).2
    | _ => simp [Datum.contents]
  unfold readArm
  split
  · rename_i head name rest heq
    rw [heq] at hcontents
    have hrest : ∀ e ∈ rest, e.Legible := fun e he => hcontents e (by simp [he])
    refine (readName_gives (hcontents name (by simp))).bind fun x hx => ?_
    split
    · split
      · exact .ok ⟨hx, rfl, rfl⟩
      · exact .fail
    · exact (Gives.mapM fun e he => readType_gives e (hrest e he)).bind fun ts hts =>
        .pure ⟨hx, hts.1, rfl⟩
    · exact (Gives.mapM fun e he => readFieldDecl_gives (hrest e he)).bind fun fs hfs =>
        .pure ⟨hx, rfl, hfs.1⟩
    · exact .fail
  · exact .fail

theorem readParam_gives (hd : d.Legible) : Gives (readParam unit d) Param.Formed := by
  unfold readParam
  split
  · exact (readName_gives (hd.items _ (by simp))).bind fun x hx =>
      (readType_gives _ (hd.items _ (by simp))).bind fun t ht => .pure ⟨hx, ht⟩
  · split
    · exact (readName_gives (hd.items _ (by simp))).bind fun x hx =>
        (readType_gives _ (hd.items _ (by simp))).bind fun t ht => .pure ⟨hx, ht⟩
    · exact .fail
  · exact .fail

theorem readParams_gives (hd : d.Legible) :
    Gives (readParams unit d) fun xs => ∀ x ∈ xs, x.Formed := by
  unfold readParams
  split
  · exact fun xs hxs => (Gives.mapM (fun e he => readParam_gives (hd.items e (by simp [he]))) xs hxs).1
  · exact .fail

/-- Attributes are all that the metadata of a function sets. -/
theorem readAttributes_gives (p : Pos) (notes : List (String × Datum)) (h : Head) :
    Gives (readAttributes unit p notes h) fun h' =>
      ∃ isUnsafe variadic, h' = { h with isUnsafe, variadic } := by
  induction notes generalizing h with
  | nil => exact .ok ⟨_, _, rfl⟩
  | cons e rest ih =>
    unfold readAttributes
    dsimp only
    split
    · exact .fail
    · split
      · exact ih _
      · exact ih _
      · exact .fail

theorem readCallee_gives (h : Head) {callee : Datum} (htype : type.Legible)
    (hcallee : callee.Legible) : Gives (readCallee unit h type callee) fun h' =>
      ∃ t path, t.Readable ∧ IsPath path ∧ h' = { h with type := t, path := path.map .name } := by
  refine (readType_gives type htype).bind fun t ht => ?_
  split
  · rename_i text
    refine .pure ⟨t, segments text, ht, ⟨?_, fun s hs => ?_⟩, rfl⟩
    · rw [intercalate_segments]
      exact hcallee.2
    · exact colon_not_mem_segments hcallee.2 hs
  · exact .fail

/-! ## Nodes -/

/-- The tree is built by the rules, and its operators and identifiers are as they come from a text:
any operator, and identifiers without colons. No variant has more than `bound` arms. -/
abbrev Sourced (bound : Nat) : Node → Prop :=
  Node.Formed (fun _ => True) (fun s => ':' ∉ s.toList) IsText (· ≤ bound)

variable {bound : Nat}

theorem nest_sourced {kind} (hkind : kind ∈ [.dot, .path]) {left rest} (hleft : Sourced bound left)
    (hrest : ∀ n ∈ rest, Sourced bound n) : Sourced bound (nest { kind, loc } left rest) := by
  induction rest generalizing left with
  | nil => exact hleft
  | cons right rest ih =>
    obtain ⟨hright, hrest⟩ := List.forall_mem_cons.1 hrest
    exact ih (.access hkind hleft hright) hrest

theorem readSymbol_gives (htext : IsSymbol text) :
    Gives (readSymbol unit p text) (Sourced bound) := by
  unfold readSymbol
  dsimp only
  split
  · exact .ok .bool
  · split
    · exact .fail
    · split
      · exact .fail
      · rename_i first rest hparts
        refine .ok ?_
        let ident (s : String) : Node :=
          .leaf { kind := .ident, loc := .ofPos unit p, name := .name s }
        have hident : ∀ s ∈ segments text, Sourced bound (ident s) :=
          fun s hs => .ident (colon_not_mem_segments htext hs)
        rw [hparts, List.forall_mem_cons] at hident
        have hchain : Sourced bound (nest { kind := .path, loc := .ofPos unit p } (ident first)
            (rest.map ident)) :=
          nest_sourced (by simp) hident.1 (List.forall_mem_map.2 hident.2)
        rwa [nest, List.foldl_map] at hchain

theorem readVariable_gives {kind} {mutable : Bool} {name : Datum} {init}
    (hkind : kind ∈ [.varDef, .staticDef, .constDef]) (hname : name.Legible)
    (hmut : mutable = false → name.isSymbol "mut" = false) (htype : type.Legible)
    (hinit : Gives init fun cs => cs.length ≤ 1 ∧ ∀ c ∈ cs, Sourced bound c) :
    Gives (readVariable unit { kind, loc } mutable name type init) (Sourced bound) := by
  have hread : Gives (readName unit name) fun x =>
      ∃ s, x = .name s ∧ IsName s ∧ (mutable = false → s ≠ "mut") := by
    intro x hx
    obtain ⟨s, rfl, hs⟩ := readName_gives hname x hx
    refine ⟨s, rfl, hs, fun hm => ?_⟩
    rintro rfl
    have hno := hmut hm
    unfold readName at hx
    split at hx
    · split at hx
      · simp only [fail_eq_ok] at hx
      · cases hx
        simp [Datum.isSymbol] at hno
    · simp only [fail_eq_ok] at hx
  refine hread.bind fun x hx => ?_
  obtain ⟨s, rfl, hs, hne⟩ := hx
  exact (readType_gives type htype).bind fun t ht => hinit.bind fun cs hcs =>
    .pure (.varDef hkind hs hne ht hcs.1 hcs.2)

theorem readFunction_gives {name params : Datum} {body} (hname : name.Legible)
    (hparams : params.Legible) (htype : type.Legible)
    (hbody : Gives body fun b => b = .absent ∨ Sourced bound b ∧ b.kind? = some .block) :
    Gives (readFunction unit { kind := .funcDef, loc } p notes name params type body)
      (Sourced bound) := by
  refine (readAttributes_gives p notes _).bind fun h hh => (readName_gives hname).bind fun x hx => ?_
  obtain ⟨u, v, rfl⟩ := hh
  obtain ⟨s, rfl, hs⟩ := hx
  exact (readParams_gives hparams).bind fun ps hps => (readType_gives type htype).bind fun t ht =>
    hbody.bind fun b hb => .pure
      (.funcDef hs hps ht (hb.imp_right And.right) fun hne => (hb.resolve_left hne).1)

/-! Of a list, the parts are read first. What is made of them is formed by induction; it is left to
see that each kind of node gets the parts that it can have. -/

theorem readNodes_gives (hds : ∀ d ∈ ds, Gives (readNode unit d) (Sourced bound)) :
    Gives (readNodes unit ds) fun ns => (∀ n ∈ ns, Sourced bound n) ∧ ns.length = ds.length := by
  rw [readNodes_eq_mapM]
  exact .mapM hds

theorem readComponents_gives {es}
    (hes : ∀ e ∈ es, IsSymbol e.1 ∧ Gives (readNode unit e.2) (Sourced bound)) :
    Gives (readComponents unit es) fun fs =>
      (∀ f ∈ fs, f.Keyed) ∧ ∀ f ∈ fs, Sourced bound f.value := by
  induction es with
  | nil => exact .ok ⟨nofun, nofun⟩
  | cons e rest ih =>
    obtain ⟨key, d⟩ := e
    obtain ⟨⟨hkey, hd⟩, hes⟩ := List.forall_mem_cons.1 hes
    unfold readComponents
    exact hd.bind fun v hv => (ih hes).bind fun fs hfs => .pure
      ⟨List.forall_mem_cons.2 ⟨⟨⟨key, rfl, hkey⟩, rfl⟩, hfs.1⟩,
        List.forall_mem_cons.2 ⟨hv, hfs.2⟩⟩

section Parts

variable {p q : Pos} {notes marks : List (String × Datum)} {word : String} {args : List Datum}
  {kind : Kind} (hk : Kind.ofName word = kind) (hargs : ∀ d ∈ args, d.Legible)
  (hnode : ∀ d ∈ args, Gives (readNode unit d) (Sourced bound))

include hk hnode

/-- Kinds that have nothing but operands. -/
theorem operands_gives (hkind : kind ∈ Kind.onlyOperands) :
    Gives (readNode unit (.list p notes (.atom q marks .symbol word :: args))) (Sourced bound) := by
  have hread : takes kind args.length = true → Gives (do
      return .ofChildren { kind, loc := .ofPos unit p } (← readNodes unit args)) (Sourced bound) :=
    fun htakes => (readNodes_gives hnode).bind fun cs hcs =>
      .pure (.operands hkind (hcs.2 ▸ htakes) hcs.1)
  unfold readNode
  dsimp only
  rw [hk]
  fin_cases hkind
  all_goals
    dsimp only
    split
    · rename_i htakes
      exact hread htakes
    · exact .fail

include hargs

/-- Declarations. -/
theorem declaration_gives (hbound : args.length ≤ bound)
    (hkind : kind ∈ [.moduleDef, .structDef, .unionDef, .enumDef, .variantDef, .aliasDef]) :
    Gives (readNode unit (.list p notes (.atom q marks .symbol word :: args))) (Sourced bound) := by
  unfold readNode
  dsimp only
  rw [hk]
  fin_cases hkind
  all_goals
    dsimp only
    split
  all_goals first
    | exact .fail
    | refine (readName_gives (hargs _ (by simp))).bind fun x hx => ?_
      obtain ⟨s, rfl, hs⟩ := hx
      simp only [List.forall_mem_cons] at hargs hnode
  · exact (readNodes_gives hnode.2).bind fun cs hcs => .pure (.moduleDef hs hcs.1)
  iterate 2
    exact (Gives.mapM fun e he => readFieldDecl_gives (hargs.2 e he)).bind fun fs hfs =>
      .pure (.record (by simp) hs
        (List.forall_mem_map.2 fun f hf => ⟨(hfs.1 f hf).1, (hfs.1 f hf).2, rfl⟩))
  · exact (Gives.mapM fun e he => readEnumValue_gives (hargs.2 e he)).bind fun vs hvs =>
      .pure (.enumDef hs hvs.1)
  · simp only [List.length_cons] at hbound
    exact (Gives.mapM fun e he => readArm_gives (hargs.2 e he)).bind fun arms harms =>
      .pure (.variantDef hs (by omega) harms.1)
  · exact (readType_gives _ hargs.2.1).bind fun t ht => .pure (.aliasDef hs ht)

omit hk in
theorem function_gives (hk : Kind.ofName word = .funcDef) :
    Gives (readNode unit (.list p notes (.atom q marks .symbol word :: args))) (Sourced bound) := by
  unfold readNode
  dsimp only
  rw [hk]
  dsimp only
  split
  · exact readFunction_gives (hargs _ (by simp)) (hargs _ (by simp)) (hargs _ (by simp))
      (.ok (.inl rfl))
  · refine readFunction_gives (hargs _ (by simp)) (hargs _ (by simp)) (hargs _ (by simp))
      ((hnode _ (by simp)).bind fun b hb => ?_)
    split
    · rename_i hblock
      refine .pure (.inr ⟨hb, ?_⟩)
      cases b with
      | absent => cases hblock
      | mk h cs fs b => exact congrArg some hblock
    · exact .fail
  · exact .fail

theorem variable_gives (hkind : kind ∈ [.varDef, .staticDef, .constDef]) :
    Gives (readNode unit (.list p notes (.atom q marks .symbol word :: args))) (Sourced bound) := by
  have hnone : Gives (.ok []) fun cs => cs.length ≤ 1 ∧ ∀ c ∈ cs, Sourced bound c := .ok (by simp)
  have hone : ∀ d ∈ args, Gives (do return [← readNode unit d])
      fun cs => cs.length ≤ 1 ∧ ∀ c ∈ cs, Sourced bound c := fun d hd =>
    (hnode d hd).bind fun n hn => .pure (by simpa using hn)
  have hread : ∀ {mutable : Bool} {name type : Datum} {init : Read (List Node)},
      name ∈ args → type ∈ args → (mutable = false → name.isSymbol "mut" = false) →
      Gives init (fun cs => cs.length ≤ 1 ∧ ∀ c ∈ cs, Sourced bound c) →
      Gives (readVariable unit { kind, loc := .ofPos unit p } mutable name type init)
        (Sourced bound) :=
    fun hname htype hmut => readVariable_gives hkind (hargs _ hname) hmut (hargs _ htype)
  unfold readNode
  dsimp only
  rw [hk]
  simp only [List.mem_cons, List.not_mem_nil, or_false] at hkind
  rcases hkind with rfl | rfl | rfl
  all_goals
    dsimp only
    split
    · split
      · exact .fail
      · rename_i hmut
        exact hread (by simp) (by simp) (fun _ => by simpa using hmut) hnone
    · split
      · exact hread (by simp) (by simp) nofun hnone
      · rename_i hmut
        exact hread (by simp) (by simp) (fun _ => by simpa using hmut) (hone _ (by simp))
    · split
      · exact hread (by simp) (by simp) nofun (hone _ (by simp))
      · exact .fail
    · exact .fail

/-- Numbers and operators. -/
theorem operator_gives (hkind : kind ∈ [.int, .float, .binary, .assign, .unary, .ref, .cast]) :
    Gives (readNode unit (.list p notes (.atom q marks .symbol word :: args))) (Sourced bound) := by
  have hany : ∀ d : Datum, Gives (readOperator unit d) fun _ => True := fun _ _ _ => trivial
  unfold readNode
  dsimp only
  rw [hk]
  fin_cases hkind
  all_goals
    dsimp only
    split
  all_goals try exact .fail
  · exact (readInteger_gives _ _).bind fun i hi =>
      (readType_gives _ (hargs _ (by simp))).bind fun t ht => .pure (.int hi ht)
  · split
    · rename_i hreal
      exact .ok (.float hreal)
    · exact .fail
  iterate 2
    exact (hany _).bind fun o _ => (hnode _ (by simp)).bind fun x hx =>
      (hnode _ (by simp)).bind fun y hy => .pure (.binary (by simp) trivial hx hy)
  · exact (hany _).bind fun o _ => (hnode _ (by simp)).bind fun x hx => .pure (.unary trivial hx)
  · exact (hnode _ (by simp)).bind fun x hx => .pure (.ref hx)
  · split
    · exact (hnode _ (by simp)).bind fun x hx => .pure (.ref hx)
    · exact .fail
  · exact (hnode _ (by simp)).bind fun x hx =>
      (readType_gives _ (hargs _ (by simp))).bind fun t ht => .pure (.cast ht hx)

/-- Calls, literals and accesses. -/
theorem chain_gives (hkind : kind ∈ [.call, .lit, .literal, .typedCall, .dot, .path])
    (hvalues : ∀ {p notes es}, Datum.map p notes es ∈ args →
      ∀ e ∈ es, Gives (readNode unit e.2) (Sourced bound)) :
    Gives (readNode unit (.list p notes (.atom q marks .symbol word :: args))) (Sourced bound) := by
  have hfields : ∀ {p notes es}, Datum.map p notes es ∈ args → Gives (readComponents unit es)
      fun fs => (∀ f ∈ fs, f.Keyed) ∧ ∀ f ∈ fs, Sourced bound f.value := fun hes =>
    readComponents_gives fun e he => ⟨((hargs _ hes).entries e he).1, hvalues hes e he⟩
  unfold readNode
  dsimp only
  rw [hk]
  fin_cases hkind
  all_goals
    dsimp only
    split
  all_goals try exact .fail
  · refine (readName_gives (hargs _ (by simp))).bind fun x hx => ?_
    obtain ⟨s, rfl, hs⟩ := hx
    exact (hfields (.tail _ (.head _))).bind fun fs hfs => .pure (.namedCall hs hfs.1 hfs.2)
  · refine (readName_gives (hargs _ (by simp))).bind fun x hx => ?_
    obtain ⟨s, rfl, hs⟩ := hx
    exact (readNodes_gives (List.forall_mem_cons.1 hnode).2).bind fun cs hcs =>
      .pure (.call hs hcs.1)
  · refine (readName_gives (hargs _ (by simp))).bind fun x hx => ?_
    obtain ⟨s, rfl, hs⟩ := hx
    exact (hfields (.tail _ (.head _))).bind fun fs hfs => .pure (.lit hs hfs.1 hfs.2)
  · exact (readType_gives _ (hargs _ (by simp))).bind fun t ht =>
      (hfields (.tail _ (.head _))).bind fun fs hfs => .pure (.literal ht hfs.1 hfs.2)
  · refine (readCallee_gives _ (hargs _ (by simp)) (hargs _ (by simp))).bind fun h hh => ?_
    obtain ⟨t, path, ht, hpath, rfl⟩ := hh
    exact (hfields (.tail _ (.tail _ (.head _)))).bind fun fs hfs =>
      .pure (.namedTypedCall ht hpath hfs.1 hfs.2)
  · refine (readCallee_gives _ (hargs _ (by simp)) (hargs _ (by simp))).bind fun h hh => ?_
    obtain ⟨t, path, ht, hpath, rfl⟩ := hh
    simp only [List.forall_mem_cons] at hnode
    exact (readNodes_gives hnode.2.2).bind fun cs hcs => .pure (.typedCall ht hpath hcs.1)
  iterate 2
    simp only [List.forall_mem_cons] at hnode
    split
    · exact .fail
    · exact hnode.1.bind fun l hl => (readNodes_gives hnode.2).bind fun rs hrs =>
        .pure (nest_sourced (by simp) hl hrs.1)

end Parts

theorem readNode_gives (d : Datum) (hbound : d.Every fun e => e.contents.length ≤ bound)
    (hlegible : d.Legible) : Gives (readNode unit d) (Sourced bound) := by
  by_cases hlist : ∃ p notes q marks word args,
      d = .list p notes (.atom q marks .symbol word :: args)
  · obtain ⟨p, notes, q, marks, word, args, rfl⟩ := hlist
    have hchild : ∀ d ∈ args, d ∈ (Datum.list p notes (.atom q marks .symbol word :: args)).children :=
      fun d hd => Datum.mem_children_of_content (.tail _ hd)
    have hargs := (List.forall_mem_cons.1 hlegible.items).2
    have hnode : ∀ d ∈ args, Gives (readNode unit d) (Sourced bound) := fun d hd =>
      have hlt := Datum.sizeOf_lt_of_mem_children (hchild d hd)
      readNode_gives d (hbound.child (hchild d hd)) (hargs d hd)
    have hvalues : ∀ {p notes es}, Datum.map p notes es ∈ args →
        ∀ e ∈ es, Gives (readNode unit e.2) (Sourced bound) := fun {p notes es} hes e he =>
      have hvalue : e.2 ∈ (Datum.map p notes es).children :=
        Datum.mem_children_of_content (List.mem_map_of_mem he)
      have hlt := (Datum.sizeOf_lt_of_mem_children hvalue).trans
        (Datum.sizeOf_lt_of_mem_children (hchild _ hes))
      readNode_gives e.2 ((hbound.child (hchild _ hes)).child hvalue) ((hargs _ hes).entries e he).2
    cases hk : Kind.ofName word with
    | program | block | unsafeBlock | externBlock | tuple | array | ifThen | whileLoop | loop
    | breakLoop | continueLoop | returnValue | deref | index =>
      exact operands_gives hk hnode (by simp [Kind.onlyOperands])
    | moduleDef | structDef | unionDef | enumDef | variantDef | aliasDef =>
      exact declaration_gives hk hargs hnode (Nat.le_of_succ_le hbound.self) (by simp)
    | funcDef => exact function_gives hargs hnode hk
    | varDef | staticDef | constDef => exact variable_gives hk hargs hnode (by simp)
    | int | float | binary | assign | unary | ref | cast =>
      exact operator_gives hk hargs hnode (by simp)
    | call | lit | literal | typedCall | dot | path =>
      exact chain_gives hk hargs hnode (by simp) hvalues
    | str | bool | ident | other name =>
      unfold readNode
      dsimp only
      rw [hk]
      dsimp only
      split <;> exact .fail
  · unfold readNode
    split
    · exact (readInteger_gives _ _).bind fun i hi => .pure (.int hi .unknown)
    · exact .ok (.str hlegible.2)
    · exact readSymbol_gives hlegible.2
    · exact (hlist ⟨_, _, _, _, _, _, rfl⟩).elim
    · exact .fail
    · exact .fail
termination_by sizeOf d
decreasing_by
  all_goals
    subst_vars
    exact hlt

theorem readProgram_gives (hbound : d.Every fun e => e.contents.length ≤ bound)
    (hlegible : d.Legible) :
    Gives (readProgram unit d) fun n => Sourced bound n ∧ n.head.kind = .program := by
  refine (readNode_gives d hbound hlegible).bind fun n hn => ?_
  split
  · rename_i hk
    exact .pure ⟨hn, hk⟩
  · exact .fail

end TreeReader

namespace Node

/-- A tree that was read is built by the rules of trees. -/
theorem sourced_of_read {src unit : String} {tree : Node} (h : read src unit = .ok tree) :
    TreeReader.Sourced src.length tree ∧ tree.head.kind = .program := by
  unfold read at h
  split at h
  · cases h
  · rename_i d hd
    exact TreeReader.readProgram_gives (Datum.contents_le_of_read hd) (Datum.legible_of_read hd) tree
      h

theorem kind?_of_read {src unit : String} {tree : Node} (h : read src unit = .ok tree) :
    tree.kind? = some .program := by
  obtain ⟨hsourced, hkind⟩ := sourced_of_read h
  cases tree with
  | absent => nomatch hsourced
  | mk => exact congrArg some hkind

section Formed

variable {op word text : String → Prop} {size : Nat → Prop}

/-- Every node of a tree that is built by the rules has the shape of its kind. -/
theorem Formed.wellFormed {n : Node} (h : n.Formed op word text size) : n.WellFormed := by
  induction h with
  | operands isKind count _ ih =>
    refine wellFormed_ofChildren ?_ ih
    fin_cases isKind
    all_goals exact count
  | moduleDef _ _ ih => exact wellFormed_ofChildren rfl ih
  | record isKind _ fields =>
    rcases List.mem_pair.1 isKind with rfl | rfl
    all_goals
      refine wellFormed_ofFields rfl (fun f hf => (fields f hf).2.2) fun f hf => ?_
      rw [(fields f hf).2.2]
      exact every_absent
  | enumDef | variantDef | aliasDef | int | float | str | bool | ident =>
    exact wellFormed_leaf rfl
  | @funcDef _ _ _ _ _ _ body _ _ _ isBlock _ ih =>
    refine every_mk.2 ⟨.mk rfl (by simp) (isBlock.imp_right fun hb => ⟨rfl, hb⟩), by simp, by simp, ?_⟩
    by_cases hb : body = .absent
    · exact hb ▸ every_absent
    · exact ih hb
  | varDef isKind _ _ _ count _ ih =>
    simp only [List.mem_cons, List.not_mem_nil, or_false] at isKind
    rcases isKind with rfl | rfl | rfl
    all_goals exact wellFormed_ofChildren count ih
  | binary isKind _ _ _ iha ihb | access isKind _ _ iha ihb =>
    rcases List.mem_pair.1 isKind with rfl | rfl
    all_goals exact wellFormed_ofChildren rfl (by simp [iha, ihb])
  | unary _ _ ih | ref _ ih | cast _ _ ih => exact wellFormed_ofChildren rfl (by simpa using ih)
  | call _ _ ih | typedCall _ _ _ ih => exact wellFormed_ofChildren (fun h => by cases h) ih
  | namedCall _ _ _ ih | namedTypedCall _ _ _ _ ih =>
    exact wellFormed_ofFields (fun _ => rfl) (fun _ _ => rfl) ih
  | lit _ _ _ ih | literal _ _ _ ih => exact wellFormed_ofFields rfl (fun _ _ => trivial) ih

end Formed

/-- Every node of a tree that was read has the shape of its kind. -/
theorem read_wellFormed {src unit : String} {tree : Node} (h : read src unit = .ok tree) :
    tree.WellFormed :=
  (sourced_of_read h).1.wellFormed

end Node

end TreeSema
