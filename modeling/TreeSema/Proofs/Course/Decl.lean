import TreeSema.Proofs.Sound

/-!
# What declarations add to a table

A declaration whose name is taken is reported and adds nothing. Any other one adds an entry with
its name and its location, of the kind that it declares; a variant adds the structs that hold what
its arms carry as well, as far as their names are free. Beside that a declaration changes a state
like an expression does.

* `Registers`: what a declaration adds.
* `Registers.sound`, `Registers.leads`: it keeps definitions apart and loses none.
* `record_settles`, `enum_settles`, `variant_settles`, `aliasDecl_settles`: declarations of types
  are reported or add what they declare; `declareFunction_registers` for functions.
-/
namespace TreeSema.Analysis

variable {α : Type} {s s' : State} {h : Head}

/-! ## Steps that declare nothing -/

theorem touches_framed (s : State) : Framed s.Touches where
  toStable := touches_stable s
  frame _ _ hs := ⟨hs.table, hs.findings⟩

theorem State.Touches.free (h : s.Touches s') {name} (hfree : s.table.lookup name = none) :
    s'.table.lookup name = none := Symbols.Touched.lookup_eq_none h.table hfree

/-- Reporting something changes no table. -/
theorem State.touches_report (s : State) (f : Finding) :
    s.Touches { s with findings := s.findings ++ [f] } :=
  ⟨.refl _, List.prefix_append _ _⟩

theorem State.leads_report (s : State) (f : Finding) :
    s.Leads { s with findings := s.findings ++ [f] } :=
  ⟨⟨fun _ => id, List.prefix_append _ _⟩, rfl⟩

/-! ## Entries -/

/-- The entry that a declaration adds, other than that of a variant or a module. -/
inductive Introduces (h : Head) : SymbolEntry → Prop
  | structDef (hk : h.kind = .structDef) (fields : Fields) :
    Introduces h (.definition h.name (.structDef fields) h.loc)
  | unionDef (hk : h.kind = .unionDef) (fields : Fields) :
    Introduces h (.definition h.name (.unionDef fields) h.loc)
  | enumDef (hk : h.kind = .enumDef) {d : EnumBody} (hd : d.Small) :
    Introduces h (.definition h.name (.enumDef d) h.loc)
  | aliasDef (hk : h.kind = .aliasDef) : Introduces h (.definition h.name (.aliasDef h.type) h.loc)
  | func (hk : h.kind = .funcDef) (params : List Formal) (flags : Attributes) :
    Introduces h (.definition h.name (.func ⟨params, h.type, flags⟩) h.loc)

/-- Entries are added one after the other where their names are free; the others are reported. -/
inductive InsertsFree : State → List SymbolEntry → State → Prop
  | nil {s : State} : InsertsFree s [] s
  | taken {s s' : State} {e : SymbolEntry} {es : List SymbolEntry}
      (rest : InsertsFree { s with findings := s.findings ++ [⟨e.loc, .redefined e.name⟩] } es s') :
    InsertsFree s (e :: es) s'
  | free {s s' : State} {e : SymbolEntry} {es : List SymbolEntry}
      (hfree : s.table.lookup e.name = none)
      (rest : InsertsFree { s with table := s.table.insert e } es s') : InsertsFree s (e :: es) s'

/-- What a declaration whose name is free adds. -/
inductive Registers (s : State) (h : Head) : State → Prop
  | entry {e : SymbolEntry} (hfree : s.table.lookup h.name = none) (he : Introduces h e) :
    Registers s h { s with table := s.table.insert e }
  | variant {d} {structs : List SymbolEntry} {s' : State}
      (hfree : s.table.lookup h.name = none) (hk : h.kind = .variantDef)
      (hd : Encodes h.name ⟨.empty, []⟩ d structs) (hcount : structs.length ≤ h.arms.length)
      (hstructs : InsertsFree
        { s with table := s.table.insert (.definition h.name (.variantDef d) h.loc) } structs s') :
    Registers s h s'

namespace Introduces

variable {e : SymbolEntry} (he : Introduces h e)

include he

theorem name : e.name = h.name := by cases he <;> rfl

theorem static : e.static = true := by cases he <;> rfl

theorem regular : e.Regular := by cases he <;> rfl

theorem not_module (body : Option ModuleBody) : e.kind ≠ .moduleDef body := by
  cases he <;> nofun

theorem not_variant (d : VariantBody) : e.kind ≠ .variantDef d := by
  cases he <;> nofun

end Introduces

/-- A definition whose name is free is kept apart from the others. -/
theorem sound_insert (hs : s.table.Sound) {e : SymbolEntry} (hfree : s.table.lookup e.name = none)
    (hregular : e.Regular) (hmodule : ∀ body, e.kind ≠ .moduleDef body) :
    Symbols.Sound (s.table.insert e) :=
  hs.insert (fun _ => hfree) hregular fun _ hk => absurd hk (hmodule _)

theorem leads_insert_free {e : SymbolEntry} (hfree : s.table.lookup e.name = none) :
    s.Leads { s with table := s.table.insert e } :=
  State.leads_insert (Table.open_of_lookup hfree)

namespace InsertsFree

variable {es : List SymbolEntry}

theorem sound (h : InsertsFree s es s') (hs : s.table.Sound)
    (hes : ∀ e ∈ es, e.Regular ∧ ∀ body, e.kind ≠ .moduleDef body) : s'.table.Sound := by
  induction h with
  | nil => exact hs
  | taken _ ih => exact ih hs fun e he => hes e (.tail _ he)
  | free hfree _ ih =>
    obtain ⟨hregular, hmodule⟩ := hes _ (.head _)
    exact ih (sound_insert hs hfree hregular hmodule) fun e he => hes e (.tail _ he)

theorem leads (h : InsertsFree s es s') : s.Leads s' := by
  induction h with
  | nil => exact .refl _
  | taken _ ih => exact State.Leads.trans (State.leads_report _ _) ih
  | free hfree _ ih => exact (leads_insert_free hfree).trans ih

/-- Each of the entries is in the table, or its name was reported. -/
theorem defines_or_reported (h : InsertsFree s es s') (hes : ∀ e ∈ es, e.static = true)
    {e : SymbolEntry} (he : e ∈ es) : s'.table.Defines e ∨ ⟨e.loc, .redefined e.name⟩ ∈ s'.findings := by
  induction h with
  | nil => cases he
  | taken rest ih =>
    rcases List.mem_cons.1 he with rfl | he
    · exact .inr (rest.leads.findings.subset (by simp))
    · exact ih (fun e he => hes e (.tail _ he)) he
  | free _ rest ih =>
    rcases List.mem_cons.1 he with rfl | he
    · exact .inl (rest.leads.defines _ (Table.defines_insert_self _ (hes _ (.head _))))
    · exact ih (fun e he => hes e (.tail _ he)) he

section Added

variable {e : SymbolEntry} (hi : InsertsFree s es s')

include hi

/-- Nothing else is added. -/
theorem of_added {P : Symbols → Prop} (hP : ∀ {t d}, P (Table.insert t d) → e = d ∨ P t)
    (he : P s'.table) : e ∈ es ∨ P s.table := by
  induction hi with
  | nil => exact .inr he
  | taken _ ih => exact (ih he).imp_left (.tail _)
  | free _ _ ih =>
    rcases ih he with he | he
    · exact .inl (.tail _ he)
    · rcases hP he with rfl | he
      · exact .inl (.head _)
      · exact .inr he

theorem of_defines (he : s'.table.Defines e) : e ∈ es ∨ s.table.Defines e :=
  hi.of_added (P := (·.Defines e)) (fun h => h.of_insert.imp_left And.right) he

theorem of_holds (he : s'.table.Holds e) : e ∈ es ∨ s.table.Holds e :=
  hi.of_added (P := (·.Holds e)) Table.Holds.of_insert he

end Added

end InsertsFree

theorem Encodes.regular {owner d d' structs} (hd : Encodes owner d d' structs) {e : SymbolEntry}
    (he : e ∈ structs) : e.static = true ∧ e.Regular ∧ ∀ body, e.kind ≠ .moduleDef body := by
  obtain ⟨arm, fields, loc, rfl⟩ := hd.entries e he
  exact ⟨rfl, rfl, nofun⟩

namespace Registers

theorem sound (hr : Registers s h s') (hs : s.table.Sound) : s'.table.Sound := by
  cases hr with
  | entry hfree he => exact sound_insert hs (he.name ▸ hfree) he.regular he.not_module
  | variant hfree _ hd _ hstructs =>
    refine hstructs.sound ?_ fun e he => (hd.regular he).2
    exact sound_insert (s := s) hs hfree rfl nofun

theorem leads (hr : Registers s h s') : s.Leads s' := by
  cases hr with
  | entry hfree he => exact leads_insert_free (he.name ▸ hfree)
  | variant hfree _ _ _ hstructs => exact (leads_insert_free hfree).trans hstructs.leads

end Registers

/-! ## Declarations -/

/-- A declaration is reported because its name is taken, or it adds what it declares. -/
inductive Settles (s : State) (h : Head) (s' : State) : Prop
  | taken (bound : s.table.lookup h.name ≠ none) (touches : s.Touches s')
      (reported : ⟨h.loc, .redefined h.name⟩ ∈ s'.findings)
  | added {s₁ s₂ : State} (before : s.Touches s₁) (registers : Registers s₁ h s₂)
      (after : s₂.Touches s')

/-- A declaration keeps definitions apart and loses none. -/
theorem Settles.leads (hr : Settles s h s') (hs : s.table.Sound) : s'.table.Sound ∧ s.Leads s' := by
  cases hr with
  | taken _ touches _ => exact ⟨hs.touched touches.table, touches.leads hs⟩
  | added before registers after =>
    have hadded := registers.sound (hs.touched before.table)
    exact ⟨hadded.touched after.table,
      ((before.leads hs).trans registers.leads).trans (after.leads hadded)⟩

/-- A declaration looks first whether its name is free. -/
theorem settles_of_free {m : Bool → Analysis α} (htaken : ∃ a, m true = pure a)
    (hfree : s.table.lookup h.name = none → Settles s h (m false s).2) :
    Settles s h ((redefined h.name h.loc >>= m) s).2 := by
  rw [bind_apply]
  rcases redefined_run h.name h.loc s with ⟨hnone, hrun⟩ | ⟨e, hsome, hrun⟩
  · rw [hrun]
    exact hfree hnone
  · obtain ⟨a, ha⟩ := htaken
    rw [hrun, ha]
    exact .taken (by simp [hsome]) (State.touches_report s _) (by simp [pure_apply])

theorem collectFields_touches (fields : Fields) (decls : List FieldDecl) (s : State) :
    s.Touches (collectFields fields decls s).2 :=
  touches_of_ensures (fun s => collectFields_ensures (touches_framed s).collects fields decls) s

theorem record_settles (fs : List (Component Node)) (hk : h.kind = .structDef ∨ h.kind = .unionDef) :
    Settles s h (record h fs s).2 := by
  refine settles_of_free ⟨(), rfl⟩ fun hfree => ?_
  have htouches := collectFields_touches .empty (fs.map fun f => ⟨f.name, f.type, f.loc⟩) s
  refine .added htouches (.entry (htouches.free hfree) ?_) (.refl _)
  rcases hk with hk | hk
  · rw [if_neg (by rw [hk]; decide)]
    exact .structDef hk _
  · rw [if_pos hk]
    exact .unionDef hk _

theorem enum_settles (hk : h.kind = .enumDef) : Settles s h (enum h s).2 := by
  refine settles_of_free ⟨(), rfl⟩ fun hfree => ?_
  have hvalues := fun s => enumValues_ensures (touches_stable s).reports h.name 0 _ h.values .empty
  have htouches := touches_of_ensures hvalues s
  have hsmall := (hvalues s s (.refl s)).2
  exact .added htouches (.entry (htouches.free hfree) (.enumDef hk hsmall)) (.refl _)

theorem insertFree_inserts : ∀ (es : List SymbolEntry) (s : State),
    InsertsFree s es (insertFree es s).2
  | [], _ => .nil
  | e :: rest, s => by
    have hrun : insertFree (e :: rest) s = insertFree rest (if (redefined e.name e.loc s).1
        then (redefined e.name e.loc s).2
        else { (redefined e.name e.loc s).2 with
          table := (redefined e.name e.loc s).2.table.insert e }) := by
      conv => lhs; unfold insertFree
      rw [bind_apply]
      rcases redefined e.name e.loc s with ⟨_ | _, s₁⟩ <;> rfl
    rw [hrun]
    rcases redefined_run e.name e.loc s with ⟨hfree, hr⟩ | ⟨d, -, hr⟩
    · rw [hr]
      exact .free hfree (insertFree_inserts rest _)
    · rw [hr]
      exact .taken (insertFree_inserts rest _)

theorem variant_settles (hk : h.kind = .variantDef) : Settles s h (variant h s).2 := by
  refine settles_of_free ⟨(), rfl⟩ fun hfree => ?_
  have harms := fun s => variantArms_ensures (touches_framed s).collects h.name ⟨.empty, []⟩ h.arms
  have htouches := touches_of_ensures harms s
  obtain ⟨hencodes, hcount⟩ := (harms s s (.refl s)).2
  exact .added htouches
    (.variant (htouches.free hfree) hk hencodes hcount (insertFree_inserts _ _)) (.refl _)

theorem aliasDecl_settles (hk : h.kind = .aliasDef) : Settles s h (aliasDecl h s).2 := by
  refine settles_of_free ⟨(), rfl⟩ fun hfree => ?_
  refine .added (.refl s) (.entry hfree (.aliasDef hk)) ?_
  refine touches_of_ensures (m := do
      declare h.type h.loc
      if (← symbols).aliasLoops (.custom [h.name]) then report h.loc (.selfAlias h.name))
    (P := fun _ => True) (fun s => ?_) _
  refine (declare_ensures (touches_framed s).collects _ _).bind fun _ _ =>
    symbols_ensures.bind fun t _ => ?_
  split
  · exact (touches_stable s).report_ensures _ _
  · exact .pure trivial

/-- A function is added before its body is analysed. -/
theorem declareFunction_registers (hfree : s.table.lookup h.name = none) (hk : h.kind = .funcDef)
    (flags : Attributes) :
    ∃ s₁, s.Touches s₁ ∧ Registers s₁ h (declareFunction h flags s).2 := by
  have htouches : s.Touches (formals [] h.params (checkType h.loc h.type s).2).2 :=
    touches_of_ensures (m := checkType h.loc h.type >>= fun _ => formals [] h.params)
      (fun s => (checkType_ensures (touches_stable s) _ _).bind fun _ _ =>
        formals_ensures (touches_stable s).reports [] h.params List.nodup_nil) s
  exact ⟨_, htouches, .entry (htouches.free hfree) (.func hk _ flags)⟩

end TreeSema.Analysis
