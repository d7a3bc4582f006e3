import TreeSema.Proofs.OrderedMap
import TreeSema.Proofs.Rewrite.Expr

/-!
# What declarations do to a state

Declarations put entries into the table, leave types to be looked up and open scopes. `Kept` lists
these changes, next to those that expressions make: a property of states that it holds of is kept
by whatever a statement does.

* `variantArms_ensures`: the arms of a variant come with the structs that hold what they carry.
* `variantArms_numbered`: they are numbered in order, whichever were given twice.
* `formals_ensures`: the parameters of a declared function have different names.
* `function_relates`: a function is kept, with what is made of its body.
-/
namespace TreeSema

/-- The arms of the variant `owner` are listed in order, each once, and numbered by their places in
it. -/
structure VariantBody.Numbered (owner : Ident) (d : VariantBody) : Prop where
  nodup : d.order.Nodup
  keys : d.arms.keys = d.order
  arms : ∀ (i : Nat) (arm : Ident), d.order[i]? = some arm →
    ∃ m, d.arms.get? arm = some m ∧ m.owner = owner ∧ m.ordinal = i

namespace Analysis

variable {J I : State → Prop}

/-- An entry of a declaration, other than that of a module: the parameters of a function have
different names, and the arms of a variant are numbered. -/
def Declared (e : SymbolEntry) : Prop :=
  match e.kind with
  | .func sig => (sig.params.map (·.name)).Nodup
  | .variantDef d => d.Numbered e.name
  | .moduleDef _ => False
  | _ => True

/-- The property is kept by what is done to collect a definition: faults are reported, and types are
left to be looked up. -/
structure Collects (I : State → Prop) : Prop extends Reports fun _ => I where
  declare : ∀ {s : State} (type : Ty) (loc : Location), I s →
    I { s with declared := s.declared ++ [(type, loc)] }

/-- So it is by entries that are put into the table. -/
structure Defining (I : State → Prop) : Prop extends Collects I where
  insert : ∀ {s : State} {e : SymbolEntry}, Declared e → I s →
    I { s with table := s.table.insert e }

/-- The property is kept by what expressions do to a state, and by variables that are bound. -/
structure Binds (I : State → Prop) : Prop extends Stable I where
  bind : ∀ {s : State} (name : Ident) (v : Variable) (loc : Location), I s →
    I { s with table := s.table.insert (.binding name v loc) }

/-- The property is kept by what expressions do to a state, and it does not depend on the functions
that are being analysed and the types that are still to be looked up. -/
structure Framed (I : State → Prop) : Prop extends Stable I where
  frame : ∀ {s : State} (returns : List Ty) (declared : List (Ty × Location)), I s →
    I { s with returns, declared }

/-- The property is kept by what statements do to a state. Of the state in which the body of a
module ends, another property is known. -/
structure Kept (J I : State → Prop) : Prop extends Framed I where
  insert : ∀ {s : State} {e : SymbolEntry}, Declared e → I s →
    I { s with table := s.table.insert e }
  module : ∀ {s r : State} (name : Ident) (loc : Location), J r → I s →
    I { s with
      findings := s.findings ++ r.findings
      table := s.table.insert (.definition name (.moduleDef (some (.table r.table))) loc) }
  enter : ∀ {s : State} (context : Context), I s → I { s with table := s.table.enter context }
  exit : ∀ {s : State}, I s → I { s with table := s.table.exit }

theorem Framed.collects (hI : Framed I) : Collects I :=
  ⟨hI.reports, fun {s} _ _ hs => hI.frame s.returns _ hs⟩

theorem Kept.defining (hI : Kept J I) : Defining I := ⟨hI.toFramed.collects, hI.insert⟩

theorem Kept.binds (hI : Kept J I) : Binds I := ⟨hI.toStable, fun _ _ _ => hI.insert trivial⟩

end Analysis

/-! ## The structs of a variant -/

/-- The names of the components of what an arm carries. -/
def Payload.componentNames : Payload → List Ident
  | .tuple types => (List.range types.length).map componentName
  | .struct fields => fields.keys
  | _ => []

theorem componentName_injective : Function.Injective componentName := by
  intro i j h
  have htext : "_" ++ toString i = "_" ++ toString j := Ident.name.inj h
  have hdigits : Nat.toDigits 10 i = Nat.toDigits 10 j := by
    simpa only [Nat.toString_eq_ofList_toDigits, String.ofList_inj] using
      (String.append_right_inj _).1 htext
  rw [← Nat.ofDigitChars_ten_toDigits (n := i), hdigits, Nat.ofDigitChars_ten_toDigits]

theorem keys_tupleFields (types : List Ty) :
    (Analysis.tupleFields types).keys = (Payload.tuple types).componentNames := by
  have hnames : (types.zipIdx.map fun p => (componentName p.2, p.1)).map (·.1)
      = (List.range types.length).map componentName := by
    rw [List.map_map, List.range_eq_range', ← List.zipIdx_map_snd 0 types, List.map_map]
    rfl
  refine (OrderedMap.keys_ofList ?_).trans hnames
  rw [hnames]
  exact List.nodup_range.map componentName_injective

/-- The values of an enum have 32 bits. -/
def EnumBody.Small (d : EnumBody) : Prop :=
  ∀ name m, d.values.get? name = some m → Analysis.fits32 m.value = true

theorem EnumBody.Small.empty : Small ⟨.empty, []⟩ := fun _ _ h => by cases h

theorem EnumBody.Small.set {d : EnumBody} (h : d.Small) {name} {m : EnumMember} {order}
    (hm : Analysis.fits32 m.value = true) : Small ⟨d.values.set name m, order⟩ := by
  intro name' m' hm'
  rw [OrderedMap.get?_set] at hm'
  split at hm'
  · cases hm'
    exact hm
  · exact h name' m' hm'

namespace VariantBody.Numbered

variable {owner : Ident} {d : VariantBody}

theorem empty (owner : Ident) : Numbered owner ⟨.empty, []⟩ :=
  ⟨List.nodup_nil, rfl, fun _ _ h => by cases h⟩

/-- A new arm comes last and gets the next number. -/
theorem add (h : d.Numbered owner) {name} (hnew : name ∉ d.arms.keys) (payload : Payload)
    (loc : Location) : Numbered owner
      ⟨d.arms.set name ⟨owner, payload, d.order.length, loc⟩, d.order ++ [name]⟩ where
  nodup := by simpa using h.nodup.concat (h.keys ▸ hnew)
  keys := by rw [OrderedMap.keys_set _ hnew, h.keys]
  arms i arm harm := by
    rw [OrderedMap.get?_set]
    rcases Nat.lt_or_ge i d.order.length with hlt | hge
    · rw [List.getElem?_append_left hlt] at harm
      have hne : arm ≠ name := by
        rintro rfl
        exact hnew (h.keys ▸ List.mem_of_getElem? harm)
      rw [if_neg hne]
      exact h.arms i arm harm
    · obtain ⟨rfl, rfl⟩ : i = d.order.length ∧ arm = name := by
        rw [List.getElem?_append_right hge, List.getElem?_singleton] at harm
        split at harm
        · exact ⟨by omega, (Option.some.inj harm).symm⟩
        · cases harm
      exact ⟨_, if_pos rfl, rfl, rfl⟩

end VariantBody.Numbered

namespace Analysis

/-- The arms that `d'` has beside those of `d` are arms of the variant `owner`, numbered in their
order, and for each of them there is a struct with the components that it carries. -/
structure Encodes (owner : Ident) (d d' : VariantBody) (structs : List SymbolEntry) : Prop where
  entries : ∀ e ∈ structs, ∃ arm fields loc,
    e = .definition (payloadStruct owner arm) (.structDef fields) loc
  ordinals : ∀ arm m, d'.arms.get? arm = some m → d.arms.get? arm = some m ∨
    ∃ i : Nat, m.ordinal = i ∧ i < d.order.length + structs.length
  arms : ∀ arm m, d'.arms.get? arm = some m → d.arms.get? arm = some m ∨ m.owner = owner ∧
    ∃ (fields : Fields) (loc : Location),
      Entry.definition (payloadStruct owner arm) (.structDef fields) loc ∈ structs ∧
      fields.keys = m.payload.componentNames

namespace Encodes

theorem refl (owner : Ident) (d : VariantBody) : Encodes owner d d [] :=
  ⟨fun _ he => absurd he List.not_mem_nil, fun _ _ h => .inl h, fun _ _ h => .inl h⟩

theorem cons {owner name} {d d' : VariantBody} {payload : Payload} {loc} {fields : Fields} {structs}
    (h : Encodes owner
      ⟨d.arms.set name ⟨owner, payload, d.order.length, loc⟩, d.order ++ [name]⟩ d' structs)
    (hfields : fields.keys = payload.componentNames) :
    Encodes owner d d' (.definition (payloadStruct owner name) (.structDef fields) loc :: structs)
      where
  entries := List.forall_mem_cons.2 ⟨⟨name, fields, loc, rfl⟩, h.entries⟩
  ordinals arm m hm := by
    rcases h.ordinals arm m hm with hset | ⟨i, hi, hlt⟩
    · rw [OrderedMap.get?_set] at hset
      split at hset
      · cases hset
        exact .inr ⟨d.order.length, rfl, by simp⟩
      · exact .inl hset
    · refine .inr ⟨i, hi, ?_⟩
      simp only [List.length_append, List.length_cons, List.length_nil] at hlt ⊢
      omega
  arms arm m hm := by
    rcases h.arms arm m hm with hset | ⟨howner, fields', loc', hmem, hkeys⟩
    · rw [OrderedMap.get?_set] at hset
      split at hset
      · rename_i heq
        subst heq
        cases hset
        exact .inr ⟨rfl, fields, loc, List.mem_cons_self .., hfields⟩
      · exact .inl hset
    · exact .inr ⟨howner, fields', loc', List.mem_cons_of_mem _ hmem, hkeys⟩

theorem declared {owner d d' structs} (h : Encodes owner d d' structs) :
    ∀ e ∈ structs, Declared e := by
  intro e he
  obtain ⟨arm, fields, loc, rfl⟩ := h.entries e he
  exact trivial

end Encodes

/-! ## What is only reported -/

variable {α : Type} {J I : State → Prop} {R : Node → Node → Prop} {below : ExprRule}

section Reports

variable (hI : Reports fun _ => I)

include hI

theorem redefined_ensures (name : Ident) (loc : Location) :
    Ensures I (redefined name loc) fun _ => True := by
  refine symbols_ensures.bind fun t _ => ?_
  split
  · exact .pure trivial
  · exact (hI.report_ensures _ rfl).bind fun _ _ => .pure trivial

/-- The values that an enum gets are small. -/
theorem enumValues_ensures (owner : Ident) : ∀ (next : Int) (d : EnumBody) (vs : List EnumItem),
    d.Small → Ensures I (enumValues owner next d vs) EnumBody.Small
  | _, _, [], hd => .pure hd
  | next, d, v :: rest, hd => by
    unfold enumValues
    dsimp only
    generalize (if v.explicit = true then v.value else next) = value
    split
    · exact (hI.report_ensures _ rfl).bind fun _ _ => enumValues_ensures owner _ d rest hd
    · split
      · exact (hI.report_ensures _ rfl).bind fun _ _ => enumValues_ensures owner _ d rest hd
      · rename_i hsmall
        exact enumValues_ensures owner _ _ rest (hd.set (by simpa using hsmall))

theorem checkAll_ensures : ∀ declared : List (Ty × Location),
    Ensures I (checkAll declared) fun _ => True
  | [] => .pure trivial
  | (type, loc) :: rest =>
    (checkType_judges hI loc true type).ensures.bind fun _ _ => checkAll_ensures rest

/-- The parameters of a declared function have different names. -/
theorem formals_ensures : ∀ (done : List Formal) (params : List Param),
    (done.map (·.name)).Nodup → Ensures I (formals done params) fun r => (r.map (·.name)).Nodup
  | done, [], hdone => .pure hdone
  | done, p :: rest, hdone => by
    unfold formals
    split
    · exact (hI.report_ensures _ rfl).bind fun _ _ => formals_ensures _ rest hdone
    · rename_i hnew
      refine (checkType_judges hI _ true _).ensures.bind fun _ _ => formals_ensures _ rest ?_
      have hfree : p.name ∉ done.map (·.name) := by simpa using hnew
      simpa using hdone.concat hfree

theorem jump_ensures (h : Head) : Ensures I (jump h) fun _ => True := by
  refine symbols_ensures.bind fun t _ => ?_
  split
  · exact .pure trivial
  · exact hI.report_ensures _ rfl

end Reports

/-! ## What declarations collect -/

section Collects

variable (hI : Collects I)

include hI

theorem declare_ensures (type : Ty) (loc : Location) :
    Ensures I (declare type loc) fun _ => True := fun _ hs => ⟨hI.declare type loc hs, trivial⟩

theorem collectFields_ensures : ∀ (fields : Fields) (decls : List FieldDecl),
    Ensures I (collectFields fields decls) fun _ => True
  | _, [] => .pure trivial
  | fields, f :: rest => by
    unfold collectFields
    split
    · exact (hI.report_ensures _ rfl).bind fun _ _ => collectFields_ensures _ rest
    · exact (declare_ensures hI _ _).bind fun _ _ => collectFields_ensures _ rest

theorem declareTypes_ensures (loc : Location) (types : List Ty) :
    Ensures I (declareTypes loc types) fun _ => True := by
  induction types with
  | nil => exact .pure trivial
  | cons type rest ih => exact (declare_ensures hI type loc).bind fun _ _ => ih

/-- The struct for an arm has the components that the arm carries. -/
theorem armPayload_ensures (arm : Arm) :
    Ensures I (armPayload arm) fun r => r.2.keys = r.1.componentNames := by
  unfold armPayload
  split
  · exact (declareTypes_ensures hI _ _).bind fun _ _ => .pure (keys_tupleFields arm.types)
  · exact (collectFields_ensures hI _ _).bind fun _ _ => .pure rfl
  · exact .pure rfl

/-- The arms of a variant come with the structs that hold what they carry, at most one for each. -/
theorem variantArms_ensures (owner : Ident) : ∀ (d : VariantBody) (arms : List Arm),
    Ensures I (variantArms owner d arms)
      fun r => Encodes owner d r.1 r.2 ∧ r.2.length ≤ arms.length
  | d, [] => .pure ⟨.refl owner d, Nat.le_refl _⟩
  | d, arm :: rest => by
    unfold variantArms
    split
    · refine (hI.report_ensures _ rfl).bind fun _ _ =>
        (variantArms_ensures owner d rest).mono fun r hr => ?_
      exact ⟨hr.1, Nat.le_succ_of_le hr.2⟩
    · refine (armPayload_ensures hI arm).bind fun ⟨payload, fields⟩ hfields => ?_
      exact (variantArms_ensures owner _ rest).bind fun ⟨d', structs⟩ hs =>
        .pure ⟨hs.1.cons hfields, Nat.succ_le_succ hs.2⟩

/-- Arms are numbered in order. One that was given before is reported and takes no number. -/
theorem variantArms_numbered (owner : Ident) : ∀ {d : VariantBody} (arms : List Arm),
    d.Numbered owner → Ensures I (variantArms owner d arms) fun r => r.1.Numbered owner
  | _, [], hd => .pure hd
  | d, arm :: rest, hd => by
    unfold variantArms
    split
    · exact (hI.report_ensures _ rfl).bind fun _ _ => variantArms_numbered owner rest hd
    · rename_i hnew
      refine (armPayload_ensures hI arm).bind fun ⟨payload, fields⟩ _ => ?_
      have hadd := hd.add (fun hmem => hnew (OrderedMap.get?_isSome_iff.2 hmem)) payload arm.loc
      exact (variantArms_numbered owner rest hadd).bind fun ⟨d', structs⟩ hd' => .pure hd'

end Collects

/-! ## Types and functions -/

section Defining

variable (hI : Defining I)

include hI

theorem insert_ensures {e} (he : Declared e) :
    Ensures I (insert e) fun _ => True := fun _ hs => ⟨hI.insert he hs, trivial⟩

theorem record_ensures (h : Head) (fs : List (Component Node)) :
    Ensures I (record h fs) fun _ => True := by
  refine (redefined_ensures hI.toReports _ _).bind fun taken _ => ?_
  split
  · exact .pure trivial
  · refine (collectFields_ensures hI.toCollects _ _).bind fun fields _ => insert_ensures hI ?_
    split <;> exact trivial

theorem enum_ensures (h : Head) : Ensures I (enum h) fun _ => True := by
  refine (redefined_ensures hI.toReports _ _).bind fun taken _ => ?_
  split
  · exact .pure trivial
  · exact (enumValues_ensures hI.toReports _ _ _ _ .empty).bind fun d _ =>
      insert_ensures hI trivial

theorem insertFree_ensures : ∀ {es : List SymbolEntry}, (∀ e ∈ es, Declared e) →
    Ensures I (insertFree es) fun _ => True
  | [], _ => .pure trivial
  | e :: rest, he => by
    obtain ⟨he, hrest⟩ := List.forall_mem_cons.1 he
    refine (redefined_ensures hI.toReports _ _).bind fun taken _ => ?_
    dsimp only
    split
    · exact insertFree_ensures hrest
    · exact (insert_ensures hI he).bind fun _ _ => insertFree_ensures hrest

theorem variant_ensures (h : Head) : Ensures I (variant h) fun _ => True := by
  refine (redefined_ensures hI.toReports _ _).bind fun taken _ => ?_
  split
  · exact .pure trivial
  · have hnumbered := variantArms_numbered hI.toCollects h.name h.arms (.empty h.name)
    exact ((variantArms_ensures hI.toCollects _ _ _).and hnumbered).bind fun ⟨d, structs⟩ hs =>
      (insert_ensures hI (by exact hs.2)).bind fun _ _ => insertFree_ensures hI hs.1.1.declared

theorem aliasDecl_ensures (h : Head) : Ensures I (aliasDecl h) fun _ => True := by
  refine (redefined_ensures hI.toReports _ _).bind fun taken _ => ?_
  split
  · exact .pure trivial
  · refine (insert_ensures hI (by exact trivial)).bind fun _ _ => ?_
    refine (declare_ensures hI.toCollects _ _).bind fun _ _ => symbols_ensures.bind fun t _ => ?_
    split
    · exact hI.report_ensures _ rfl
    · exact .pure trivial

theorem declareFunction_ensures (h : Head) (flags : Attributes) :
    Ensures I (declareFunction h flags) fun _ => True := by
  refine (checkType_judges hI.toReports _ true _).ensures.bind fun _ _ => ?_
  refine (formals_ensures hI.toReports [] h.params List.nodup_nil).bind fun params hparams => ?_
  exact (insert_ensures hI (by exact hparams)).bind fun _ _ => .pure trivial

end Defining

/-! ## Values and variables -/

theorem returnStmt_relates (hI : Stable I) (hR : Rewriting I R) (hb : ExprRule.Relates I R below)
    (h : Head) (cs : List Node) :
    Ensures I (returnStmt below h cs) fun cs' => List.Forall₂ R cs cs' := by
  refine get_ensures.bind fun s _ => symbols_ensures.bind fun t _ => ?_
  split
  · split
    · exact (accepts_ensures hI _ _ _).bind fun _ _ => .pure .nil
    · rename_i value rest
      refine (exprOf_relates hI hR hb _ value).bind fun r hv => ?_
      obtain ⟨value', ok⟩ := r
      exact .pure (.cons hv (hR.refl_all rest))
  · exact hI.report_pure _ _ (hR.refl_all cs)

theorem Binds.bind_ensures (hI : Binds I) (name : Ident) (v : Variable) (loc : Location) :
    Ensures I (insert (.binding name v loc)) fun _ => True := fun _ hs =>
  ⟨hI.bind name v loc hs, trivial⟩

section Binds

variable (hI : Binds I)

include hI

theorem bindFormals_ensures : ∀ params : List (Formal × Location),
    Ensures I (bindFormals params) fun _ => True
  | [] => .pure trivial
  | _ :: rest => (hI.bind_ensures _ _ _).bind fun _ _ => bindFormals_ensures rest

theorem bindForeign_ensures (h : Head) : Ensures I (bindForeign h) fun _ => True := by
  unfold bindForeign
  split
  · exact hI.report_ensures _ _
  · exact (checkType_ensures hI.toStable _ _).bind fun _ _ => hI.bind_ensures _ _ _

theorem foreignVariable_ensures (h : Head) (cs : List Node) :
    Ensures I (foreignVariable h cs) fun _ => True := by
  refine (redefined_ensures hI.reports _ _).bind fun taken _ => ?_
  split
  · exact .pure trivial
  · dsimp only
    split
    · exact bindForeign_ensures hI h
    · exact (hI.report_ensures _ _).bind fun _ _ => bindForeign_ensures hI h

theorem variableDecl_relates (hR : Rewriting I R) (hb : ExprRule.Relates I R below) (h : Head)
    (storage : Storage) (cs : List Node) :
    Ensures I (variableDecl below h storage cs) fun cs' => List.Forall₂ R cs cs' := by
  refine (redefined_ensures hI.reports _ _).bind fun taken _ => ?_
  split
  · exact .pure (hR.refl_all cs)
  · dsimp only
    split
    · split
      · exact hI.report_pure _ _ .nil
      · rename_i init rest
        refine (hb init _).bind fun r hn => ?_
        obtain ⟨init', type⟩ := r
        have hcs := List.Forall₂.cons hn (hR.refl_all rest)
        cases type with
        | none => exact .pure hcs
        | some type => exact (hI.bind_ensures _ _ _).bind fun _ _ => .pure hcs
    · refine (checkType_ensures hI.toStable _ _).bind fun _ _ => ?_
      refine (hI.bind_ensures _ _ _).bind fun _ _ => ?_
      split
      · exact .pure .nil
      · rename_i init rest
        refine (exprOf_relates hI.toStable hR hb _ init).bind fun r hn => ?_
        obtain ⟨init', ok⟩ := r
        exact (hI.bind_ensures _ _ _).bind fun _ _ => .pure (.cons hn (hR.refl_all rest))

end Binds

/-! ## Bodies -/

theorem returning_ensures (hI : Framed I) {step} {P : α → Prop} (result : Ty)
    (hstep : Ensures I step P) : Ensures I (returning result step) P := fun s hs =>
  have ⟨h, hP⟩ := hstep _ (hI.frame (result :: s.returns) s.declared hs)
  ⟨hI.frame _ _ h, hP⟩

theorem settleDeclared_ensures (hI : Framed I) (mark : Nat) :
    Ensures I (settleDeclared mark) fun _ => True :=
  get_ensures.bind fun _ _ => (checkAll_ensures hI.reports _).bind fun _ _ s hs =>
    ⟨hI.frame s.returns _ hs, trivial⟩

section Kept

variable (hI : Kept J I)

include hI

theorem inScope_ensures {step} {P : α → Prop} (context : Context) (hstep : Ensures I step P) :
    Ensures I (inScope context step) P := fun _ hs =>
  have ⟨h, hP⟩ := hstep _ (hI.enter context hs)
  ⟨hI.exit h, hP⟩

theorem functionBody_relates (hR : Rewriting I R) (h : Head) (params : List Formal) (b : Node)
    {analyse : List Node → Analysis (List Node)}
    (ha : ∀ cs, Ensures I (analyse cs) fun cs' => List.Forall₂ R cs cs') :
    Ensures I (functionBody h params b analyse) fun b' => R b b' :=
  inScope_ensures hI _ <| (bindFormals_ensures hI.binds _).bind fun _ _ =>
    (returning_ensures hI.toFramed _ (ha b.children)).bind fun _ hcs => .pure (hR.withChildren hcs)

/-- A function is kept, with what is made of its body. -/
theorem function_relates (hR : Rewriting I R) (h : Head) (flags : Attributes) (b : Node)
    {analyse : List Node → Analysis (List Node)}
    (ha : ∀ cs, Ensures I (analyse cs) fun cs' => List.Forall₂ R cs cs') :
    Ensures I (function h flags b analyse) fun b' => R b b' := by
  refine (redefined_ensures hI.reports _ _).bind fun taken _ => ?_
  split
  · exact .pure (hR.refl b)
  · refine (declareFunction_ensures hI.defining _ _).bind fun params _ => ?_
    split
    · exact .pure (hR.refl b)
    · split
      · exact hI.report_pure _ _ (hR.refl b)
      · exact functionBody_relates hI hR h params b ha

end Kept

end Analysis

end TreeSema
