import TreeSema.Proofs.Trace.Stmt

/-!
# Every type of a definition is looked up

The types in the signature of a function are looked up before the function is put into the table.
The types in a struct, a union, a variant or an alias are left to the end of the innermost body
around it: they are queued, and the end of a body looks up those that were queued since its start.
`Checks` relates each type that is looked up in one of these ways to the state in which that is done.

* `EntryKind.types`: the types that a definition is made of.
* `State.Accounts`: of every entry of the table, the types were looked up or are still queued.
* `Visits.accounts`: so it is after every point of a run, by induction on the levels that are left.
* `finished_checked`: in the end nothing is queued, so that all types were looked up.
-/
namespace TreeSema

/-! ## Types of definitions -/

namespace OrderedMap

variable {α : Type}

def values (m : OrderedMap α) : List α := m.entries.map (·.2)

/-- A value of a map of which a key was set. -/
theorem mem_values_set {m : OrderedMap α} {name} {value x : α} (h : x ∈ (m.set name value).values) :
    x = value ∨ x ∈ m.values := by
  obtain ⟨e, he, rfl⟩ := List.mem_map.1 h
  rcases (mem_entries_set m name value e).1 he with rfl | ⟨he, -⟩
  · exact .inl rfl
  · exact .inr (List.mem_map_of_mem he)

theorem mem_values_ofList {calls : List (Ident × α)} {x} (h : x ∈ (ofList calls).values) :
    x ∈ calls.map (·.2) := by
  obtain ⟨e, he, rfl⟩ := List.mem_map.1 h
  rw [← get?_eq_some_iff, get?_ofList, List.lookup_eq_some_iff] at he
  obtain ⟨_, _, hcalls, -⟩ := he
  exact List.mem_map_of_mem (List.mem_reverse.1 (by simp [hcalls]))

end OrderedMap

/-- The types of what an arm carries. -/
def Payload.types : Payload → List Ty
  | .tuple types => types
  | .struct fields => fields.values
  | _ => []

namespace EntryKind

variable {M : Type}

/-- The types that a definition is made of: those of its fields, of what its arms carry, of its
parameters and its result, or the target of an alias. -/
def types : EntryKind M → List Ty
  | structDef fields => fields.values
  | unionDef fields => fields.values
  | variantDef d => d.arms.values.flatMap (·.payload.types)
  | aliasDef target => [target]
  | func sig => sig.result :: sig.params.map (·.type)
  | _ => []

end EntryKind

/-- The types in the signature of a function. -/
def Head.signature (h : Head) : List Ty := h.type :: h.params.map (·.type)

namespace Analysis

variable {α : Type} {cfg : Config} {schedule : Schedule} {s s₁ s' : State} {h : Head}

/-! ## Queued types -/

/-- The type is still to be looked up. -/
def State.Queued (s : State) (type : Ty) : Prop := ∃ loc, (type, loc) ∈ s.declared

/-- Types may have been queued, and the table was left alone. -/
structure State.Queues (s s' : State) : Prop where
  table : s'.table = s.table
  declared : s.declared <+: s'.declared

namespace State.Queues

theorem refl (s : State) : s.Queues s := ⟨rfl, List.prefix_rfl⟩

theorem trans {s₁ s₂ s₃ : State} (h : s₁.Queues s₂) (h' : s₂.Queues s₃) : s₁.Queues s₃ :=
  ⟨h'.table.trans h.table, h.declared.trans h'.declared⟩

theorem queued (h : s.Queues s') {type} (hq : s.Queued type) : s'.Queued type :=
  hq.imp fun _ hloc => h.declared.subset hloc

end State.Queues

theorem Quiet.queues {m : Analysis α} (hm : Quiet m) (s : State) : s.Queues (m s).2 := by
  obtain ⟨fs, hfs⟩ := hm.run s
  rw [hfs]
  exact ⟨rfl, List.prefix_rfl⟩

theorem declare_queues (type : Ty) (loc : Location) (s : State) :
    s.Queues (declare type loc s).2 ∧ (declare type loc s).2.Queued type :=
  ⟨⟨rfl, List.prefix_append _ _⟩, loc, List.mem_append_right _ (List.mem_singleton.2 rfl)⟩

/-- The types of collected fields are queued. -/
theorem collectFields_queues : ∀ (decls : List FieldDecl) (fields : Fields) (s : State),
    s.Queues (collectFields fields decls s).2 ∧ ∀ type ∈ (collectFields fields decls s).1.values,
      type ∈ fields.values ∨ (collectFields fields decls s).2.Queued type
  | [], _, s => ⟨.refl s, fun _ htype => .inl htype⟩
  | f :: rest, fields, s => by
    unfold collectFields
    split
    · have hreported := (Quiet.report f.loc (.redefined f.name) rfl).queues s
      obtain ⟨hrest, htypes⟩ := collectFields_queues rest fields (report f.loc (.redefined f.name) s).2
      exact ⟨hreported.trans hrest, htypes⟩
    · obtain ⟨hdeclared, hqueued⟩ := declare_queues f.type f.loc s
      obtain ⟨hrest, htypes⟩ :=
        collectFields_queues rest (fields.set f.name f.type) (declare f.type f.loc s).2
      refine ⟨hdeclared.trans hrest, fun type htype => ?_⟩
      rcases htypes type htype with hold | hnew
      · rcases OrderedMap.mem_values_set hold with rfl | hold
        · exact .inr (hrest.queued hqueued)
        · exact .inl hold
      · exact .inr hnew

theorem declareTypes_queues (loc : Location) : ∀ (types : List Ty) (s : State),
    s.Queues (declareTypes loc types s).2 ∧ ∀ type ∈ types, (declareTypes loc types s).2.Queued type
  | [], s => ⟨.refl s, List.forall_mem_nil _⟩
  | type :: rest, s => by
    obtain ⟨hdeclared, hqueued⟩ := declare_queues type loc s
    obtain ⟨hrest, htypes⟩ := declareTypes_queues loc rest (declare type loc s).2
    exact ⟨hdeclared.trans hrest, List.forall_mem_cons.2 ⟨hrest.queued hqueued, htypes⟩⟩

theorem mem_of_tupleFields {types type} (h : type ∈ (tupleFields types).values) : type ∈ types := by
  have hmem := OrderedMap.mem_values_ofList h
  have hmap : types.zipIdx.map ((·.2) ∘ fun p => (componentName p.2, p.1)) = types :=
    List.zipIdx_map_fst 0 types
  rwa [List.map_map, hmap] at hmem

/-- What an arm carries, and the struct that holds it, are made of types that are queued. -/
theorem armPayload_queues (arm : Arm) (s : State) : s.Queues (armPayload arm s).2 ∧
    (∀ type ∈ (armPayload arm s).1.1.types, (armPayload arm s).2.Queued type) ∧
    ∀ type ∈ (armPayload arm s).1.2.values, (armPayload arm s).2.Queued type := by
  unfold armPayload
  cases arm.shape with
  | tuple =>
    obtain ⟨hqueues, htypes⟩ := declareTypes_queues arm.loc arm.types s
    exact ⟨hqueues, htypes, fun type htype => htypes type (mem_of_tupleFields htype)⟩
  | struct =>
    obtain ⟨hqueues, htypes⟩ := collectFields_queues arm.fields .empty s
    have hqueued : ∀ type ∈ (collectFields .empty arm.fields s).1.values,
        (collectFields .empty arm.fields s).2.Queued type :=
      fun type htype => (htypes type htype).resolve_left List.not_mem_nil
    exact ⟨hqueues, hqueued, hqueued⟩
  | common => exact ⟨.refl s, List.forall_mem_nil _, List.forall_mem_nil _⟩
  | other => exact ⟨.refl s, List.forall_mem_nil _, List.forall_mem_nil _⟩

/-- A variant and the structs of its arms are made of types that are queued. -/
theorem variantArms_queues (owner : Ident) (arms : List Arm) (d : VariantBody) (s : State) :
    s.Queues (variantArms owner d arms s).2 ∧
    (∀ type ∈ (variantArms owner d arms s).1.1.arms.values.flatMap (·.payload.types),
      type ∈ d.arms.values.flatMap (·.payload.types) ∨
        (variantArms owner d arms s).2.Queued type) ∧
    ∀ e ∈ (variantArms owner d arms s).1.2, (∀ body, e.kind ≠ .moduleDef body) ∧
      ∀ type ∈ e.kind.types, (variantArms owner d arms s).2.Queued type := by
  induction arms generalizing d s with
  | nil => exact ⟨.refl s, fun _ htype => .inl htype, List.forall_mem_nil _⟩
  | cons arm rest ih =>
    unfold variantArms
    split
    · have hreported := (Quiet.report arm.loc (.redefined arm.name) rfl).queues s
      obtain ⟨hrest, htypes⟩ := ih d (report arm.loc (.redefined arm.name) s).2
      exact ⟨hreported.trans hrest, htypes⟩
    · obtain ⟨hpayload, hcarried, hfields⟩ := armPayload_queues arm s
      rw [bind_apply]
      generalize armPayload arm s = carried at hpayload hcarried hfields ⊢
      obtain ⟨⟨payload, fields⟩, s₁⟩ := carried
      obtain ⟨hrest, htypes, hstructs⟩ := ih
        ⟨d.arms.set arm.name ⟨owner, payload, d.order.length, arm.loc⟩, d.order ++ [arm.name]⟩ s₁
      refine ⟨hpayload.trans hrest, fun type htype => ?_, List.forall_mem_cons.2
        ⟨⟨by simp [Entry.definition], fun type htype => hrest.queued (hfields type htype)⟩, hstructs⟩⟩
      rcases htypes type htype with hset | hqueued
      · obtain ⟨m, hm, htype⟩ := List.mem_flatMap.1 hset
        rcases OrderedMap.mem_values_set hm with rfl | hm
        · exact .inr (hrest.queued (hcarried type htype))
        · exact .inl (List.mem_flatMap.2 ⟨m, hm, htype⟩)
      · exact .inr hqueued

/-! ## Where types are looked up -/

variable (cfg schedule) in
/-- In the analysis of `tree` a type of a declaration is looked up in the given state, as a part of
the module with the statements `ns`, which are analysed with `l` levels left. -/
inductive Checks (tree : Node) : (l : Nat) → (ns : List Node) → Ty → State → Prop
  /-- A function whose name is free is about to be declared. -/
  | signature {l k ns cs run} {h : Head} {fs b} {s : State} {type}
      (visit : Visits cfg schedule tree l ns (.statement (k + 1) run (.mk h cs fs b)) s)
      (hk : h.kind = .funcDef) (hfree : s.table.lookup h.name = none)
      (htype : type ∈ h.signature) : Checks tree l ns type s
  /-- So is one that is defined elsewhere. -/
  | foreign {l ns cs} {h : Head} {fs b} {s : State} {type}
      (visit : Visits cfg schedule tree l ns (.item (.mk h cs fs b)) s)
      (hk : h.kind = .funcDef) (hfree : s.table.lookup h.name = none)
      (htype : type ∈ h.signature) : Checks tree l ns type s
  /-- The statements of a body are done, and the type was queued in it. -/
  | queued {l k ns nodes} {s s₁ : State} {type loc}
      (visit : Visits cfg schedule tree l ns (.body k nodes) s)
      (hend : s₁ = (statements (belowAt cfg schedule k)
        (lookAhead cfg (belowAt cfg schedule k) nodes) s).2)
      (htype : (type, loc) ∈ s₁.declared.drop s.declared.length) : Checks tree l ns type s₁

/-! ## What is known of the entries of a table -/

variable {C : Ty → Prop} {M : ModuleBody → Prop}

/-- The types that an entry is made of were looked up, which `C` says, or are still queued; `M` says
what is known of the table of a module. -/
structure Accounted (C : Ty → Prop) (M : ModuleBody → Prop) (s : State) (e : SymbolEntry) :
    Prop where
  types : ∀ type ∈ e.kind.types, C type ∨ s.Queued type
  module : ∀ body, e.kind = .moduleDef (some body) → M body

/-- That is known of all entries of the table. -/
def State.Accounts (C : Ty → Prop) (M : ModuleBody → Prop) (s : State) : Prop :=
  ∀ e, s.table.Holds e → Accounted C M s e

theorem accounted_var {e : SymbolEntry} {v} (hv : e.kind = .var v) : Accounted C M s e := by
  constructor <;> simp [hv, EntryKind.types]

/-- A definition all of whose types are queued. -/
theorem accounted_of_queued {e : SymbolEntry} (hmodule : ∀ body, e.kind ≠ .moduleDef body)
    (htypes : ∀ type ∈ e.kind.types, s.Queued type) : Accounted C M s e :=
  ⟨fun type htype => .inr (htypes type htype), fun _ hk => absurd hk (hmodule _)⟩

theorem Accounted.queues {e} (he : Accounted C M s e) (h : s.Queues s') : Accounted C M s' e :=
  ⟨fun type htype => (he.types type htype).imp_right h.queued, he.module⟩

namespace State.Accounts

theorem init : State.Accounts C M {} := fun _ he => absurd he Table.not_holds_empty

theorem queues (hs : s.Accounts C M) (h : s.Queues s') : s'.Accounts C M := by
  intro e he
  rw [h.table] at he
  exact (hs e he).queues h

theorem quiet (hs : s.Accounts C M) {m : Analysis α} (hm : Quiet m) : (m s).2.Accounts C M :=
  hs.queues (hm.queues s)

theorem report (hs : s.Accounts C M) (f : Finding) :
    State.Accounts C M { s with findings := s.findings ++ [f] } := hs.queues ⟨rfl, List.prefix_rfl⟩

/-- A change of the table alone, which adds no entries. -/
theorem withTable (hs : s.Accounts C M) {t : Symbols} (ht : ∀ e, t.Holds e → s.table.Holds e) :
    State.Accounts C M { s with table := t } :=
  fun e he => ⟨(hs e (ht e he)).types, (hs e (ht e he)).module⟩

theorem insert (hs : s.Accounts C M) {e} (he : Accounted C M s e) :
    State.Accounts C M { s with table := s.table.insert e } := by
  intro d hd
  rcases hd.of_insert with rfl | hd
  · exact ⟨he.types, he.module⟩
  · exact ⟨(hs d hd).types, (hs d hd).module⟩

theorem bind (hs : s.Accounts C M) (name : Ident) (v : Variable) (loc : Location) :
    State.Accounts C M { s with table := s.table.insert (.binding name v loc) } :=
  hs.insert (accounted_var rfl)

theorem enter (hs : s.Accounts C M) (context : Context) :
    State.Accounts C M { s with table := s.table.enter context } :=
  hs.withTable fun _ he => he.of_enter

theorem exit (hs : s.Accounts C M) (returns : List Ty) :
    State.Accounts C M { s with returns, table := s.table.exit } :=
  fun e he => ⟨(hs e he.of_exit).types, (hs e he.of_exit).module⟩

/-- Only variables change when they get values. -/
theorem stable : Stable (State.Accounts C M) where
  report _ hs e he := ⟨(hs e he).types, (hs e he).module⟩
  refuse _ _ hs e he := ⟨(hs e he).types, (hs e he).module⟩
  value {s} name hs e' he' := by
    have htouched : s.table.Touched (s.table.modify name .withValue) :=
      Table.Rel.modify_right Entry.Touched.matching (Symbols.Touched.refl _) name .withValue
    obtain ⟨e, he, hee⟩ := htouched.holds he'
    by_cases hvar : ∃ v, e.kind = .var v
    · obtain ⟨v, hv⟩ := hvar
      obtain ⟨v', hv'⟩ := hee.var hv
      exact accounted_var hv'
    · rw [hee.eq (not_exists.1 hvar)]
      exact ⟨(hs e he).types, (hs e he).module⟩

theorem binds : Binds (State.Accounts C M) := ⟨stable, fun name v loc hs => hs.bind name v loc⟩

end State.Accounts

/-! ## Declarations -/

/-- A declaration looks first whether its name is free. -/
theorem accounts_of_free {m : Bool → Analysis α} (htaken : ∃ a, m true = pure a)
    (hfree : s.Accounts C M → (m false s).2.Accounts C M) (hs : s.Accounts C M) :
    ((redefined h.name h.loc >>= m) s).2.Accounts C M := by
  rw [bind_apply]
  rcases redefined_run h.name h.loc s with ⟨-, hrun⟩ | ⟨e, -, hrun⟩
  · rw [hrun]
    exact hfree hs
  · obtain ⟨a, ha⟩ := htaken
    rw [hrun, ha]
    exact hs.report _

theorem record_accounts (fs : List (Component Node)) (hs : s.Accounts C M) :
    (record h fs s).2.Accounts C M := by
  refine accounts_of_free ⟨(), rfl⟩ (fun hs => ?_) hs
  obtain ⟨hqueues, htypes⟩ :=
    collectFields_queues (fs.map fun f => ⟨f.name, f.type, f.loc⟩) .empty s
  have hqueued := fun type htype => (htypes type htype).resolve_left List.not_mem_nil
  refine (hs.queues hqueues).insert (accounted_of_queued ?_ ?_)
  · split <;> nofun
  · split <;> exact hqueued

theorem enum_accounts (hs : s.Accounts C M) : (enum h s).2.Accounts C M := by
  refine accounts_of_free ⟨(), rfl⟩ (fun hs => ?_) hs
  have hvalues := hs.quiet (.of_ensures fun hI => enumValues_ensures hI h.name 0 _ h.values .empty)
  exact hvalues.insert (accounted_of_queued nofun (List.forall_mem_nil _))

theorem InsertsFree.accounts {es} (hi : InsertsFree s es s') (hs : s.Accounts C M)
    (hes : ∀ e ∈ es, (∀ body, e.kind ≠ .moduleDef body) ∧ ∀ type ∈ e.kind.types, s.Queued type) :
    s'.Accounts C M := by
  induction hi with
  | nil => exact hs
  | taken _ ih => exact ih (hs.report _) fun e he => hes e (.tail _ he)
  | free _ _ ih =>
    obtain ⟨hmodule, htypes⟩ := hes _ (.head _)
    exact ih (hs.insert (accounted_of_queued hmodule htypes)) fun e he => hes e (.tail _ he)

theorem variant_accounts (hs : s.Accounts C M) : (variant h s).2.Accounts C M := by
  refine accounts_of_free ⟨(), rfl⟩ (fun hs => ?_) hs
  obtain ⟨hqueues, htypes, hstructs⟩ := variantArms_queues h.name h.arms ⟨.empty, []⟩ s
  have hqueued := fun type htype => (htypes type htype).resolve_left List.not_mem_nil
  have hadded := (hs.queues hqueues).insert
    (e := .definition h.name (.variantDef (variantArms h.name ⟨.empty, []⟩ h.arms s).1.1) h.loc)
    (accounted_of_queued nofun hqueued)
  exact (insertFree_inserts _ _).accounts hadded hstructs

/-- The target of an alias is queued after the alias was put into the table. -/
theorem aliasDecl_accounts (hs : s.Accounts C M) : (aliasDecl h s).2.Accounts C M := by
  refine accounts_of_free ⟨(), rfl⟩ (fun hs => ?_) hs
  have hdeclared : State.Accounts C M { s with
      table := s.table.insert (.definition h.name (.aliasDef h.type) h.loc)
      declared := s.declared ++ [(h.type, h.loc)] } := by
    have hqueues := (declare_queues h.type h.loc s)
    refine State.Accounts.insert (hs.queues hqueues.1) (accounted_of_queued nofun ?_)
    exact List.forall_mem_singleton.2 hqueues.2
  have hloops : Quiet (do
      if (← symbols).aliasLoops (.custom [h.name]) then report h.loc (.selfAlias h.name)) := by
    refine .symbols fun t => ?_
    split
    · exact .report _ _ rfl
    · exact .pure _
  have hlooked := State.Accounts.quiet hdeclared hloops
  exact hlooked

/-! ## Functions and variables -/

/-- The parameters of a function have the types that are written. -/
theorem formals_types : ∀ (params : List Param) (done : List Formal) (s : State),
    ∀ type ∈ (formals done params s).1.map (·.type),
      type ∈ done.map (·.type) ∨ type ∈ params.map (·.type)
  | [], _, _, _, htype => .inl htype
  | p :: rest, done, s, type, htype => by
    unfold formals at htype
    split at htype
    · have htypes := formals_types rest done (report p.loc (.redefined p.name) s).2 type htype
      exact htypes.imp_right (List.mem_cons_of_mem _)
    · rw [bind_apply] at htype
      rcases formals_types rest _ _ type htype with hdone | hrest
      · rw [List.map_append, List.mem_append] at hdone
        exact hdone.imp_right fun hlast => List.mem_cons.2 (.inl (List.mem_singleton.1 hlast))
      · exact .inr (List.mem_cons_of_mem _ hrest)

theorem declareFunction_accounts (flags : Attributes) (htypes : ∀ type ∈ h.signature, C type)
    (hs : s.Accounts C M) : (declareFunction h flags s).2.Accounts C M := by
  have hchecked := hs.quiet (checkType_quiet h.loc h.type)
  have hparams := formals_types h.params [] (checkType h.loc h.type s).2
  refine (hchecked.quiet (formals_quiet h.params [])).insert
    ⟨List.forall_mem_cons.2 ⟨.inl ?_, ?_⟩, nofun⟩
  · exact htypes _ (List.mem_cons_self ..)
  · intro type htype
    have hwritten := (hparams type htype).resolve_left List.not_mem_nil
    exact .inl (htypes type (List.mem_cons_of_mem _ hwritten))

theorem functionStart_accounts (htypes : ∀ type ∈ h.signature, C type) (hs : s.Accounts C M) :
    (functionStart h s).Accounts C M := by
  have hdeclared := declareFunction_accounts (functionFlags h .plain) htypes hs
  have hbound := bindFormals_ensures State.Accounts.binds ((declareFunction h
    (functionFlags h .plain) s).1.zip (h.params.map (·.loc))) _ (hdeclared.enter (functionContext h))
  exact fun e he => ⟨(hbound.1 e he).types, (hbound.1 e he).module⟩

/-- A function that is defined elsewhere. -/
theorem foreignFunction_accounts (b : Node) (analyse : List Node → Analysis (List Node))
    (htypes : s.table.lookup h.name = none → ∀ type ∈ h.signature, C type)
    (hs : s.Accounts C M) : (function h .foreignFn b analyse s).2.Accounts C M := by
  unfold function
  rw [bind_apply]
  rcases redefined_run h.name h.loc s with ⟨hfree, hrun⟩ | ⟨e, -, hrun⟩
  · have hdeclared := declareFunction_accounts (functionFlags h .foreignFn) (htypes hfree) hs
    cases hb : b.isAbsent with
    | true =>
      simp only [hrun, Bool.false_eq_true, if_false, if_true]
      exact hdeclared
    | false =>
      simp only [hrun, functionFlags_foreign, Bool.false_eq_true, if_false, if_true]
      exact hdeclared.report _
  · rw [hrun]
    exact hs.report _

/-- An item of a block of external definitions that is no function. -/
theorem externItem_accounts {cs fs b} (hk : h.kind ≠ .funcDef) :
    Ensures (State.Accounts C M) (externItems [.mk h cs fs b]) fun _ => True := by
  unfold externItems
  dsimp only
  split
  · exact absurd ‹_› hk
  · exact (foreignVariable_ensures State.Accounts.binds h cs).bind fun _ _ => .pure trivial
  · exact (foreignVariable_ensures State.Accounts.binds h cs).bind fun _ _ => .pure trivial
  · exact (State.Accounts.stable.report_ensures _ _).bind fun _ _ => .pure trivial

variable (cfg) in
theorem exprAt_accounts (k : Nat) : ExprRule.Relates (State.Accounts C M) (fun _ _ => True)
    (exprAt cfg k) := exprAt_relates State.Accounts.stable (trivial_rewriting _) cfg k

variable (cfg) in
theorem exprOf_accounts (k : Nat) (type : Ty) (n : Node) (hs : s.Accounts C M) :
    (exprOf (exprAt cfg k) type n s).2.Accounts C M :=
  (exprOf_relates State.Accounts.stable (trivial_rewriting _) (exprAt_accounts cfg k) type n s hs).1

/-! ## Every run -/

section Runs

variable (cfg schedule) in
/-- A type of a declaration was looked up in the run over a module. -/
def Checked (tree : Node) (l : Nat) (ns : List Node) (type : Ty) : Prop :=
  ∃ s, Checks cfg schedule tree l ns type s

variable (cfg schedule) in
/-- The table of a module is the one that a run over its statements ended with. -/
def Ran (tree : Node) (body : ModuleBody) : Prop :=
  ∃ k cs, Visits cfg schedule tree k cs (.body k cs) {} ∧
    body = .table (finished cfg schedule k cs).table

variable (cfg schedule) in
/-- What is known of the entries of a table in the middle of the run over a module. -/
abbrev Keeps (tree : Node) (l : Nat) (ns : List Node) (s : State) : Prop :=
  s.Accounts (Checked cfg schedule tree l ns) (Ran cfg schedule tree)

variable (cfg schedule) in
/-- It is known after the statements with a number of levels left, if it was before. -/
def KeptAt (tree : Node) (l : Nat) (ns : List Node) (k : Nat) : Prop :=
  ∀ {run : Option ModuleRun} {n : Node} {s : State},
    Visits cfg schedule tree l ns (.statement k run n) s → Keeps cfg schedule tree l ns s →
    Keeps cfg schedule tree l ns (stmtAt cfg schedule k run n s).2

variable {tree : Node} {l k : Nat} {ns cs nodes : List Node} {run : Option ModuleRun}
  {fs : List (Component Node)} {b : Node}

/-- By induction on the statements that are left. -/
theorem statements_keeps (ih : KeptAt cfg schedule tree l ns k)
    (hv : Visits cfg schedule tree l ns (.body k nodes) s)
    (rest done : List (Option ModuleRun × Node))
    (hslots : lookAhead cfg (belowAt cfg schedule k) nodes = done ++ rest)
    (hdone : Keeps cfg schedule tree l ns (statements (belowAt cfg schedule k) done s).2) :
    Keeps cfg schedule tree l ns (statements (belowAt cfg schedule k) (done ++ rest) s).2 := by
  induction rest generalizing done with
  | nil => rwa [List.append_nil]
  | cons slot rest hrest =>
    obtain ⟨run, n⟩ := slot
    have hnext : Keeps cfg schedule tree l ns
        (statements (belowAt cfg schedule k) (done ++ [(run, n)]) s).2 := by
      rw [statements_append]
      exact ih (hv.statement hslots) hdone
    rw [List.append_cons] at hslots ⊢
    exact hrest _ hslots hnext

/-- The end of a body looks up what was queued in it, and leaves what was queued before. -/
theorem body_keeps (ih : KeptAt cfg schedule tree l ns k)
    (hv : Visits cfg schedule tree l ns (.body k nodes) s) (hs : Keeps cfg schedule tree l ns s) :
    Keeps cfg schedule tree l ns (body cfg (belowAt cfg schedule k) nodes s).2 := by
  have hend := statements_keeps ih hv (lookAhead cfg (belowAt cfg schedule k) nodes) [] rfl hs
  rw [List.nil_append] at hend
  generalize hs₁ : (statements (belowAt cfg schedule k)
    (lookAhead cfg (belowAt cfg schedule k) nodes) s).2 = s₁ at hend
  obtain ⟨found, hchecked⟩ := (checkAll_quiet (s₁.declared.drop s.declared.length)).run s₁
  rw [body_state, hs₁, settleDeclared_state, hchecked]
  intro e he
  refine ⟨fun type htype => ?_, (hend e he).module⟩
  rcases (hend e he).types type htype with hdone | ⟨loc, hloc⟩
  · exact .inl hdone
  · rw [← List.take_append_drop s.declared.length s₁.declared, List.mem_append] at hloc
    rcases hloc with hloc | hloc
    · exact .inr ⟨loc, hloc⟩
    · exact .inl ⟨s₁, .queued hv hs₁.symm hloc⟩

theorem externItems_keeps : ∀ (rest done : List Node) {s : State},
    Visits cfg schedule tree l ns (.statement (k + 1) run (.mk h (done ++ rest) fs b)) s →
    h.kind = .externBlock → Keeps cfg schedule tree l ns (externItems done s).2 →
    Keeps cfg schedule tree l ns (externItems (done ++ rest) s).2
  | [], done, s, _, _, hs => by rwa [List.append_nil]
  | n :: rest, done, s, hv, hk, hs => by
    have hitem := hv.item hk
    have hnext : Keeps cfg schedule tree l ns (externItems (done ++ [n]) s).2 := by
      rw [externItems_append]
      cases n with
      | absent => exact hs.report _
      | mk h cs fs b =>
        by_cases hfunc : h.kind = .funcDef
        · simp only [externItems, hfunc]
          exact foreignFunction_accounts b pure
            (fun hfree type htype => ⟨_, .foreign hitem hfunc hfree htype⟩) hs
        · exact (externItem_accounts hfunc _ hs).1
    have hrest := externItems_keeps rest (done ++ [n]) (by rwa [List.append_assoc]) hk hnext
    rwa [List.append_assoc] at hrest

theorem moduleDecl_keeps
    (hv : Visits cfg schedule tree l ns (.statement (k + 1) run (.mk h cs fs b)) s)
    (hk : h.kind = .moduleDef) (hs : Keeps cfg schedule tree l ns s) :
    Keeps cfg schedule tree l ns (moduleDecl cfg (belowAt cfg schedule k) h run cs s).2 := by
  have hahead : ∀ r, run = some r → r = ModuleRun.ofBody cfg (belowAt cfg schedule k) cs :=
    hv.anchored.ahead _ _ _ rfl
  rcases redefined_run h.name h.loc s with ⟨hfree, -⟩ | ⟨e, -, htaken⟩
  · rw [moduleDecl_adopts hahead hfree]
    have hran : Ran cfg schedule tree (.table (finished cfg schedule k cs).table) :=
      ⟨k, cs, hv.module hk (.inr hfree), rfl⟩
    have hadded := hs.insert (e := .definition h.name
      (.moduleDef (some (.table (finished cfg schedule k cs).table))) h.loc)
      ⟨List.forall_mem_nil _, fun body hbody => by cases hbody; exact hran⟩
    exact fun e he => ⟨(hadded e he).types, (hadded e he).module⟩
  · rw [moduleDecl_taken htaken]
    exact hs.report _

theorem function_keeps (ih : KeptAt cfg schedule tree l ns k)
    (hv : Visits cfg schedule tree l ns (.statement (k + 1) run (.mk h cs fs b)) s)
    (hk : h.kind = .funcDef) (hs : Keeps cfg schedule tree l ns s) :
    Keeps cfg schedule tree l ns (stmtAt cfg schedule (k + 1) run (.mk h cs fs b) s).2 := by
  by_cases hbody : s.table.lookup h.name = none ∧ b.isAbsent = false
  · obtain ⟨hfree, hb⟩ := hbody
    have hstart := functionStart_accounts (C := Checked cfg schedule tree l ns)
      (fun type htype => ⟨s, .signature hv hk hfree htype⟩) hs
    rw [stmtAt_function hk hfree hb]
    exact (body_keeps ih (hv.function hk hfree hb) hstart).exit _
  · rw [stmtAt_funcDef hk]
    unfold function
    rw [bind_apply]
    rcases redefined_run h.name h.loc s with ⟨hfree, hfreeRun⟩ | ⟨e, -, htaken⟩
    · have hb : b.isAbsent = true := by simpa [hfree] using hbody
      simp only [hfreeRun, hb, Bool.false_eq_true, if_false, if_true]
      exact declareFunction_accounts _ (fun type htype => ⟨s, .signature hv hk hfree htype⟩) hs
    · rw [htaken]
      exact hs.report _

theorem branches_keeps (ih : KeptAt cfg schedule tree l ns k) {condition} :
    ∀ (rest done : List Node) {s : State},
    Visits cfg schedule tree l ns
      (.statement (k + 1) run (.mk h (condition :: (done ++ rest)) fs b)) s →
    h.kind = .ifThen →
    Keeps cfg schedule tree l ns (branches cfg (belowAt cfg schedule k) done
      (exprOf (exprAt cfg k) (.basic .bool) condition s).2).2 →
    Keeps cfg schedule tree l ns (branches cfg (belowAt cfg schedule k) (done ++ rest)
      (exprOf (exprAt cfg k) (.basic .bool) condition s).2).2
  | [], done, s, _, _, hs => by rwa [List.append_nil]
  | n :: rest, done, s, hv, hk, hs => by
    have hbranch := hv.branch hk
    have hnext : Keeps cfg schedule tree l ns (branches cfg (belowAt cfg schedule k) (done ++ [n])
        (exprOf (exprAt cfg k) (.basic .bool) condition s).2).2 := by
      rw [branches_append]
      change Keeps cfg schedule tree l ns (branch cfg (belowAt cfg schedule k) n _).2
      rw [branch_state]
      unfold branchPoint at hbranch ⊢
      split
      · rename_i hblock
        rw [if_pos hblock] at hbranch
        exact body_keeps ih hbranch hs
      · rename_i hblock
        rw [if_neg hblock] at hbranch
        exact ih hbranch hs
    have hrest := branches_keeps ih rest (done ++ [n]) (by rwa [List.append_assoc]) hk hnext
    rwa [List.append_assoc] at hrest

theorem block_keeps (ih : KeptAt cfg schedule tree l ns k) {safety : Safety}
    (hv : Visits cfg schedule tree l ns (.statement (k + 1) run (.mk h cs fs b)) s)
    (hk : h.kind = .block ∧ safety = .inherited ∨ h.kind = .unsafeBlock ∧ safety = .unsafely)
    (hs : Keeps cfg schedule tree l ns s) :
    Keeps cfg schedule tree l ns (stmtAt cfg schedule (k + 1) run (.mk h cs fs b) s).2 := by
  rw [stmtAt_block hk]
  exact (body_keeps ih (hv.block hk) (hs.enter _)).exit _

theorem loopBody_keeps (ih : KeptAt cfg schedule tree l ns k) {skipped n}
    (hv : Visits cfg schedule tree l ns (.body k (loopNodes n))
      { s with table := s.table.enter (loopContext s) })
    (hs : Keeps cfg schedule tree l ns s) :
    Keeps cfg schedule tree l ns (loopBody cfg (belowAt cfg schedule k) (skipped ++ [n]) s).2 := by
  rw [loopBody_append, loopBody_state]
  exact (body_keeps ih hv (hs.enter _)).exit _

theorem loop_keeps (ih : KeptAt cfg schedule tree l ns k)
    (hv : Visits cfg schedule tree l ns (.statement (k + 1) run (.mk h cs fs b)) s)
    (hk : h.kind = .loop) (hs : Keeps cfg schedule tree l ns s) :
    Keeps cfg schedule tree l ns (stmtAt cfg schedule (k + 1) run (.mk h cs fs b) s).2 := by
  rcases List.eq_nil_or_concat' cs with rfl | ⟨skipped, n, rfl⟩
  · simp only [stmtAt_succ, stmtStep, hk]
    exact hs.report _
  · rw [stmtAt_loop hk]
    exact loopBody_keeps ih (hv.loop hk) hs

theorem whileLoop_keeps (ih : KeptAt cfg schedule tree l ns k)
    (hv : Visits cfg schedule tree l ns (.statement (k + 1) run (.mk h cs fs b)) s)
    (hk : h.kind = .whileLoop) (hs : Keeps cfg schedule tree l ns s) :
    Keeps cfg schedule tree l ns (stmtAt cfg schedule (k + 1) run (.mk h cs fs b) s).2 := by
  cases cs with
  | nil =>
    simp only [stmtAt_succ, stmtStep, hk]
    exact hs.report _
  | cons condition rest =>
    have hcondition := exprOf_accounts cfg k (.basic .bool) condition hs
    rw [stmtAt_while hk]
    rcases List.eq_nil_or_concat' rest with rfl | ⟨skipped, n, rfl⟩
    · exact hcondition
    · exact loopBody_keeps ih (hv.whileLoop hk rfl) hcondition

theorem conditional_keeps (ih : KeptAt cfg schedule tree l ns k)
    (hv : Visits cfg schedule tree l ns (.statement (k + 1) run (.mk h cs fs b)) s)
    (hk : h.kind = .ifThen) (hs : Keeps cfg schedule tree l ns s) :
    Keeps cfg schedule tree l ns (stmtAt cfg schedule (k + 1) run (.mk h cs fs b) s).2 := by
  rw [stmtAt_if hk]
  cases cs with
  | nil => exact hs.report _
  | cons condition rest =>
    have hcondition := exprOf_accounts cfg k (.basic .bool) condition hs
    exact branches_keeps ih rest [] hv hk hcondition

/-- What is known of the entries of a table is known after a statement, if the statements in it are
analysed with fewer levels left. -/
theorem stmtAt_keeps : ∀ k : Nat, KeptAt cfg schedule tree l ns k
  | 0, run, n, s, _, hs => (State.Accounts.stable.refuse_ensures cfg n.loc s hs).1
  | k + 1, run, .absent, s, _, hs => hs.report _
  | k + 1, run, .mk h cs fs b, s, hv, hs => by
    have ih : KeptAt cfg schedule tree l ns k := stmtAt_keeps k
    have hbinds : Binds (Keeps cfg schedule tree l ns) := State.Accounts.binds
    have hexpr : ExprRule.Relates (Keeps cfg schedule tree l ns) (fun _ _ => True)
      (exprAt cfg k) := exprAt_accounts cfg k
    have hvariable := fun storage =>
      (variableDecl_relates hbinds (trivial_rewriting _) hexpr h storage cs s hs).1
    have hstep : ∀ {s' : State}, (stmtStep cfg (belowAt cfg schedule k) run (.mk h cs fs b) s).2 = s' →
        Keeps cfg schedule tree l ns s' →
        Keeps cfg schedule tree l ns (stmtAt cfg schedule (k + 1) run (.mk h cs fs b) s).2 :=
      fun hs' hkeeps => hs' ▸ hkeeps
    cases hk : h.kind with
    | funcDef => exact function_keeps ih hv hk hs
    | ifThen => exact conditional_keeps ih hv hk hs
    | whileLoop => exact whileLoop_keeps ih hv hk hs
    | loop => exact loop_keeps ih hv hk hs
    | externBlock =>
      rw [stmtAt_externBlock hk]
      exact externItems_keeps cs [] hv hk hs
    | block => exact block_keeps ih hv (.inl ⟨hk, rfl⟩) hs
    | unsafeBlock => exact block_keeps ih hv (.inr ⟨hk, rfl⟩) hs
    | moduleDef => exact hstep (by simp only [stmtStep, hk]; rfl) (moduleDecl_keeps hv hk hs)
    | structDef | unionDef => exact hstep (by simp only [stmtStep, hk]; rfl) (record_accounts fs hs)
    | enumDef => exact hstep (by simp only [stmtStep, hk]; rfl) (enum_accounts hs)
    | variantDef => exact hstep (by simp only [stmtStep, hk]; rfl) (variant_accounts hs)
    | aliasDef => exact hstep (by simp only [stmtStep, hk]; rfl) (aliasDecl_accounts hs)
    | varDef | staticDef | constDef => exact hstep (by simp only [stmtStep, hk]; rfl) (hvariable _)
    | breakLoop | continueLoop =>
      exact hstep (by simp only [stmtStep, hk]; rfl) (hs.quiet (jump_quiet h))
    | returnValue =>
      exact hstep (by simp only [stmtStep, hk]; rfl)
        (returnStmt_relates hbinds.toStable (trivial_rewriting _) hexpr h cs s hs).1
    | assign =>
      have hassign := Task.of_assign cfg schedule k (t := .stmt run (.mk h cs fs b) s)
        (congrArg some hk)
      have hsame := Task.of_assign cfg schedule k (t := .expr (.mk h cs fs b) .unknown s)
        (congrArg some hk)
      exact hstep (hassign.2.1.trans hsame.2.1.symm) (exprAt_accounts cfg (k + 1) _ _ s hs).1
    | program => exact hstep (by simp only [stmtStep, hk]; rfl) (hs.report _)
    | _ => exact hstep (by simp only [stmtStep, hk]; rfl) (hexpr _ _ s hs).1

/-- In the finished table of a module all types of definitions were looked up, and the tables of its
modules are finished. -/
theorem finished_checked (hv : Visits cfg schedule tree l ns (.body l ns) {}) {e : SymbolEntry}
    (he : (finished cfg schedule l ns).table.Holds e) :
    (∀ type ∈ e.kind.types, Checked cfg schedule tree l ns type) ∧
      ∀ body, e.kind = .moduleDef (some body) → Ran cfg schedule tree body := by
  have hend := body_keeps (stmtAt_keeps l) hv .init e he
  have hnone : (finished cfg schedule l ns).declared = [] := rfl
  refine ⟨fun type htype => (hend.types type htype).resolve_right fun hqueued => ?_, hend.module⟩
  obtain ⟨loc, hloc⟩ : (finished cfg schedule l ns).Queued type := hqueued
  rw [hnone] at hloc
  cases hloc

end Runs

end Analysis

end TreeSema
