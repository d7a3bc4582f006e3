import TreeSema.Proofs.Course.Pending
import TreeSema.Proofs.Crossing

/-!
# A finished table is closed under its types

Where no error is reported, every name in a type of a declaration led to a definition of a type when
it was looked up. That definition is still there when the module around it is finished, and its
canonical path leads to it. So does the name itself, if its segments before the last were names of
modules when it was looked up.

Nothing is said of a name that was looked up past a value. A parameter may stand in front of a module
inside its function, and a definition in that function outlives the parameter: in the finished table
the name leads through the module (`type_behind_parameter`).

* `Checks.knows`: what is looked up without an error leads to definitions of types.
* `types_resolve_when_finished`: the names in the types of a finished table.
-/
namespace TreeSema

/-- Is it a type that is defined? -/
def EntryKind.isType {M : Type} : EntryKind M → Bool
  | structDef _ => true
  | unionDef _ => true
  | enumDef _ => true
  | variantDef _ => true
  | aliasDef _ => true
  | _ => false

theorem Entry.proper_of_isType {M : Type} {e : Entry M} (h : e.kind.isType = true) : e.Proper := by
  refine ⟨fun v hk => ?_, fun owner value hk => ?_, fun owner payload ordinal hk => ?_⟩ <;>
    simp [hk, EntryKind.isType] at h

namespace Symbols

/-- If the segments of a path before the last are modules, they are the modules that it goes
through. -/
theorem modulesOf_of_tableAt? : ∀ {path : List Ident} {t B : Symbols},
    t.tableAt? path.dropLast = some B → t.modulesOf path = path.dropLast
  | [], _, _, _ => rfl
  | [_], _, _, _ => rfl
  | name :: next :: rest, t, B, hB => by
    rw [List.dropLast_cons_of_ne_nil (List.cons_ne_nil _ _)] at hB ⊢
    unfold tableAt? at hB
    split at hB
    · rename_i body _ hd
      rw [modulesOf_module hd rfl (List.cons_ne_nil _ _), modulesOf_of_tableAt? hB]
    · cases hB

theorem within_of_tableAt? : ∀ {path : List Ident} {t B : Symbols}, t.tableAt? path = some B →
    t.Within B
  | [], _, _, hB => by
    cases hB
    exact .refl _
  | name :: rest, t, B, hB => by
    unfold tableAt? at hB
    split at hB
    · rename_i body _ hd
      exact .module (Table.holds_of_lookup hd) rfl (within_of_tableAt? hB)
    · cases hB

/-- A definition of a type is found in the finished table by its canonical path. -/
theorem Completes.resolve_canonical {T t : Symbols} (hT : T.Completes t) (ht : t.Sound) {path}
    {d : SymbolEntry} (hd : t.resolve path = some d) (htype : d.kind.isType = true) :
    T.resolve (t.canonical path) = some d := by
  have hfinds := finds_of_resolve hd
  obtain ⟨B, -, -, -, hlast, hresolve⟩ :=
    hfinds.in_finished hT ht (Entry.proper_of_isType htype)
  rw [canonical_eq t hfinds.ne_nil, hresolve, hlast]

/-- It is found by the path itself, if the segments before the last are modules. -/
theorem Completes.resolve {T t : Symbols} (hT : T.Completes t) (ht : t.Sound) {path : List Ident}
    {d : SymbolEntry} (hd : t.resolve path = some d) (htype : d.kind.isType = true)
    (hmodules : (t.tableAt? path.dropLast).isSome) : T.resolve path = some d := by
  obtain ⟨B, hB⟩ := Option.isSome_iff_exists.1 hmodules
  have hne := (finds_of_resolve hd).ne_nil
  have hcanonical : t.canonical path = path := by
    rw [canonical_eq t hne, modulesOf_of_tableAt? hB, List.getLastD_eq_getLast?,
      List.getLast?_eq_getLast_of_ne_nil hne, Option.getD_some, List.dropLast_concat_getLast hne]
  rw [← hcanonical]
  exact hT.resolve_canonical ht hd htype

/-- The names in a type lead to definitions of types. -/
def Knows (t : Symbols) (paths : List (List Ident)) : Prop :=
  ∀ path ∈ paths, ∃ d, t.resolve path = some d ∧ d.kind.isType = true

end Symbols

namespace Analysis

variable {cfg : Config} {schedule : Schedule} {s s₁ s' : State} {h : Head}

/-! ## Types that are looked up without an error -/

/-- No error was reported. -/
def Faultless (found : List Finding) : Prop := ∀ f ∈ found, f.cause.severity ≠ .error

theorem Faultless.before {found found'} (h : Faultless found') (hbefore : found <+: found') :
    Faultless found := fun f hf => h f (hbefore.subset hf)

theorem Quiet.findings {α : Type} {m : Analysis α} (hm : Quiet m) (s : State) :
    s.findings <+: (m s).2.findings := by
  obtain ⟨fs, hfs⟩ := hm.run s
  rw [hfs]
  exact List.prefix_append _ _

/-- Nothing was reported last. -/
theorem Faultless.not_reported {loc} {cause : Cause}
    (h : Faultless (s.findings ++ [⟨loc, cause⟩])) : cause.severity ≠ .error :=
  h ⟨loc, cause⟩ (List.mem_append_right _ (List.mem_singleton.2 rfl))

mutual

theorem checkType_knows (loc : Location) : ∀ (type : Ty) (s : State),
    Faultless (checkType loc type s).2.findings → s.table.Knows type.names
  | .custom path, s, hok => by
    refine List.forall_mem_singleton.2 ?_
    unfold checkType at hok
    rw [bind_apply, symbols_apply] at hok
    rcases hd : s.table.resolve path with _ | d
    · rw [hd] at hok
      exact absurd rfl hok.not_reported
    · refine ⟨d, rfl, ?_⟩
      rw [hd] at hok
      dsimp only at hok
      cases hk : d.kind with
      | structDef | unionDef | enumDef | variantDef | aliasDef => rfl
      | _ =>
        rw [hk] at hok
        exact absurd rfl hok.not_reported
  | .ref target _, s, hok => checkType_knows loc target s hok
  | .ptr target, s, hok => checkType_knows loc target s hok
  | .array _ elem, s, hok => checkType_knows loc elem s hok
  | .tuple elems, s, hok => checkTypes_knows loc elems s hok
  | .template _ args, s, hok => checkTypes_knows loc args s hok
  | .unknown, _, _ | .basic _, _, _ | .unit, _, _ => List.forall_mem_nil _

theorem checkTypes_knows (loc : Location) : ∀ (types : List Ty) (s : State),
    Faultless (checkTypes loc types s).2.findings → s.table.Knows (Ty.namesAll types)
  | [], _, _ => List.forall_mem_nil _
  | type :: rest, s, hok => by
    have hrest := (checkTypes_quiet loc rest).findings (checkType loc type s).2
    have hok : Faultless (checkTypes loc rest (checkType loc type s).2).2.findings := hok
    have hknows := checkTypes_knows loc rest _ hok
    rw [(checkType_quiet loc type).table] at hknows
    exact List.forall_mem_append.2
      ⟨checkType_knows loc type s (hok.before hrest), hknows⟩

end

theorem checkAll_knows : ∀ (declared : List (Ty × Location)) (s : State),
    Faultless (checkAll declared s).2.findings → ∀ d ∈ declared, s.table.Knows d.1.names
  | [], _, _ => List.forall_mem_nil _
  | (type, loc) :: rest, s, hok => by
    have hrest := (checkAll_quiet rest).findings (checkType loc type s).2
    have hok : Faultless (checkAll rest (checkType loc type s).2).2.findings := hok
    have hknows := checkAll_knows rest _ hok
    rw [(checkType_quiet loc type).table] at hknows
    exact List.forall_mem_cons.2
      ⟨checkType_knows loc type s (hok.before hrest), hknows⟩

/-- A parameter that is not looked up has the name of another one, which is reported. -/
theorem formals_knows : ∀ (params : List Param) (done : List Formal) (s : State),
    Faultless (formals done params s).2.findings → ∀ p ∈ params, s.table.Knows p.type.names
  | [], _, _, _ => List.forall_mem_nil _
  | p :: rest, done, s, hok => by
    unfold formals at hok
    split at hok
    · have hrest := (formals_quiet rest done).findings (report p.loc (.redefined p.name) s).2
      exact absurd rfl (hok.before hrest).not_reported
    · have hrest := (formals_quiet rest (done ++ [⟨p.name, p.type, p.mutable⟩])).findings
        (checkType p.loc p.type s).2
      have hknows := formals_knows rest _ _ hok
      rw [(checkType_quiet p.loc p.type).table] at hknows
      exact List.forall_mem_cons.2
        ⟨checkType_knows p.loc p.type s (hok.before hrest), hknows⟩

theorem declareFunction_knows {flags} (hok : Faultless (declareFunction h flags s).2.findings) :
    ∀ type ∈ h.signature, s.table.Knows type.names := by
  have hformals := (formals_quiet h.params []).findings (checkType h.loc h.type s).2
  have hok : Faultless (formals [] h.params (checkType h.loc h.type s).2).2.findings := hok
  have hparams := formals_knows h.params [] _ hok
  rw [(checkType_quiet h.loc h.type).table] at hparams
  refine List.forall_mem_cons.2
    ⟨checkType_knows h.loc h.type s (hok.before hformals), fun type htype => ?_⟩
  obtain ⟨p, hp, rfl⟩ := List.mem_map.1 htype
  exact hparams p hp

/-! ## Runs without errors -/

section Runs

variable {tree : Node} {l k : Nat} {ns nodes : List Node} {p : Point} {type : Ty}

theorem kind?_of_hasErrors (hok : (tree.analyzeBy schedule cfg).diagnostics.hasErrors = false) :
    tree.kind? = some .program := by
  have hclean := (clean_of_hasErrors cfg schedule hok).findings
  by_contra hk
  unfold program at hclean
  rw [if_neg hk] at hclean
  exact hclean ⟨_, .defect .notProgram⟩ (List.mem_singleton.2 rfl) rfl

/-- Without errors there are none in any module that is analysed: a module is put into the table with
its findings, and one whose name is taken is an error itself. -/
theorem Visits.faultless (hok : (tree.analyzeBy schedule cfg).diagnostics.hasErrors = false)
    (hv : Visits cfg schedule tree l ns p s) :
    Faultless (finished cfg schedule l ns).findings := by
  induction hv with
  | program hk =>
    have hclean := (clean_of_hasErrors cfg schedule hok).findings
    unfold Analysis.program at hclean
    rwa [if_pos hk] at hclean
  | @module l k ns cs run h fs b s outer hk hrun ih =>
    have ha := outer.anchored
    have hahead : ∀ r, run = some r → r = ModuleRun.ofBody cfg (belowAt cfg schedule k) cs :=
      ha.ahead _ _ _ rfl
    have hafter := ih.before ha.later.findings
    rw [Point.after, stmtAt_moduleDef hk] at hafter
    rcases redefined_run h.name h.loc s with ⟨hfree, -⟩ | ⟨e, -, htaken⟩
    · rw [moduleDecl_adopts hahead hfree] at hafter
      exact fun f hf => hafter f (List.mem_append_right _ hf)
    · rw [moduleDecl_taken htaken] at hafter
      exact absurd rfl hafter.not_reported
  | _ => assumption

/-- The state in which the statements of a body are done. -/
theorem statements_later (hv : Visits cfg schedule tree l ns (.body k nodes) s)
    (hend : s₁ = (statements (belowAt cfg schedule k)
      (lookAhead cfg (belowAt cfg schedule k) nodes) s).2) :
    s₁.table.Sound ∧ s₁.Later (settleDeclared s.declared.length s₁).2 ∧
      (settleDeclared s.declared.length s₁).2.Later (finished cfg schedule l ns) := by
  have ha := hv.anchored
  have hsound : s₁.table.Sound := hend ▸ (statements_sound cfg schedule k
    (lookAhead_aheadOf cfg (belowAt cfg schedule k) nodes) ha.sound).fit.sound
  have hsettled := (touches_of_ensures (fun s' => settleDeclared_ensures (touches_framed s')
    s.declared.length) s₁).leads hsound
  have hafter : (Point.body k nodes).after cfg schedule s
      = (settleDeclared s.declared.length s₁).2 := by
    rw [hend]
    rfl
  exact ⟨hsound, hsettled.toLater, hafter ▸ ha.later⟩

/-- What was defined when a type was looked up is defined in the end. -/
theorem Checks.completes (hc : Checks cfg schedule tree l ns type s) :
    s.table.Sound ∧ (finished cfg schedule l ns).table.Completes s.table := by
  obtain ⟨hsound, hstack⟩ := finished_sound cfg schedule l ns
  have hvisit : ∀ {p : Point}, Visits cfg schedule tree l ns p s →
      s.table.Sound ∧ (finished cfg schedule l ns).table.Completes s.table := fun hv =>
    have ha := hv.anchored
    ⟨ha.sound, hsound, hstack, (ha.ends.2.toLater.trans ha.later).defines⟩
  cases hc with
  | signature hv => exact hvisit hv
  | foreign hv => exact hvisit hv
  | queued hv hend =>
    obtain ⟨hsound₁, hsettled, hlater⟩ := statements_later hv hend
    exact ⟨hsound₁, hsound, hstack, (hsettled.trans hlater).defines⟩

/-- What is looked up without an error leads to definitions of types. -/
theorem Checks.knows (hok : Faultless (finished cfg schedule l ns).findings)
    (hc : Checks cfg schedule tree l ns type s) : s.table.Knows type.names := by
  cases hc with
  | @signature k _ cs run h fs b _ _ hv hk hfree htype =>
    have ha := hv.anchored
    have hafter := ha.later.findings
    rw [Point.after, stmtAt_funcDef hk] at hafter
    have hlater : (declareFunction h (functionFlags h .plain) s).2.Later
        (function h .plain b (body cfg (belowAt cfg schedule k)) s).2 :=
      function_later .plain (fun _ hs₁ => body_ends (trivial_carried cfg)
        (belowAt_sound cfg schedule k) (fun _ _ => trivial) hs₁) hk hfree ha.sound
    exact declareFunction_knows (hok.before (hlater.findings.trans hafter)) type htype
  | @foreign _ cs h fs b _ _ hv hk hfree htype =>
    have ha := hv.anchored
    have hstep : (Point.item (.mk h cs fs b)).after cfg schedule s
        = (function h .foreignFn b pure s).2 := by
      simp only [Point.after, externItems, hk]
      rfl
    have hlater : (declareFunction h (functionFlags h .foreignFn) s).2.Later
        (function h .foreignFn b pure s).2 :=
      function_later .foreignFn (fun _ hs₁ => .pure hs₁ (List.forall₂_same.2 fun _ _ => trivial))
        hk hfree ha.sound
    exact declareFunction_knows
      (hok.before (hlater.findings.trans (hstep ▸ ha.later.findings))) type htype
  | @queued k _ nodes s₀ _ _ loc hv hend htype =>
    obtain ⟨-, -, hlater⟩ := statements_later hv hend
    exact checkAll_knows _ s (hok.before hlater.findings) (type, loc) htype

/-- A table of a module in a finished table is one that a run ended with. -/
theorem finished_within {T B : Symbols} (hB : T.Within B) : ∀ {l : Nat} {ns : List Node},
    Visits cfg schedule tree l ns (.body l ns) {} → T = (finished cfg schedule l ns).table →
    ∃ k cs, Visits cfg schedule tree k cs (.body k cs) {} ∧
      B = (finished cfg schedule k cs).table := by
  induction hB with
  | refl T => exact fun hv hT => ⟨_, _, hv, hT⟩
  | module he hk _ ih =>
    rintro l ns hv rfl
    obtain ⟨k, cs, hv', rfl⟩ := (finished_checked hv he).2 _ hk
    exact ih hv' rfl

/-- In a program without errors, let a finished table hold a definition: that of the program or of a
module at any depth. Every type that the definition is made of was looked up in the run over the
module. Whenever that was done, each name in it led to a definition of a type, to which its canonical
path leads in the finished table; and so does the name itself, if its segments before the last were
modules then. -/
theorem types_resolve_when_finished {tree : Node}
    (hok : (tree.analyzeBy schedule cfg).diagnostics.hasErrors = false) {B : Symbols}
    (hB : (tree.analyzeBy schedule cfg).table.Within B) {e : SymbolEntry} (he : B.Holds e)
    {type : Ty} (htype : type ∈ e.kind.types) :
    (∃ l ns, Visits cfg schedule tree l ns (.body l ns) {} ∧
      B = (finished cfg schedule l ns).table) ∧
    ∀ l ns, Visits cfg schedule tree l ns (.body l ns) {} → B = (finished cfg schedule l ns).table →
      Checked cfg schedule tree l ns type ∧
      ∀ s, Checks cfg schedule tree l ns type s → ∀ path ∈ type.names, ∃ d,
        s.table.resolve path = some d ∧ d.kind.isType = true ∧
        B.resolve (s.table.canonical path) = some d ∧
        ((s.table.tableAt? path.dropLast).isSome → B.resolve path = some d) := by
  have hk := kind?_of_hasErrors hok
  refine ⟨finished_within hB (.program hk) (analyzeBy_table hk), fun l ns hv hT => ?_⟩
  subst hT
  refine ⟨(finished_checked hv he).1 type htype, fun s hc path hpath => ?_⟩
  obtain ⟨hsound, hcompletes⟩ := hc.completes
  obtain ⟨d, hd, hisType⟩ := hc.knows (hv.faultless hok) path hpath
  exact ⟨d, hd, hisType, hcompletes.resolve_canonical hsound hd hisType,
    hcompletes.resolve hsound hd hisType⟩

/-- A module in a module, and a struct in a block in a function beside it. -/
def nestedTypes : Node :=
  .ofChildren { kind := .program, loc := {} }
    [.inModule "o" [.inModule "m" [.record "T" [("a", .basic .i32)]],
      .mk { kind := .funcDef, loc := {}, name := .name "f", type := .unit,
            params := [{ name := .name "p", type := .custom [.name "m", .name "T"] }] } [] []
        (.ofChildren { kind := .block, loc := {} } [.ofChildren { kind := .block, loc := {} }
          [.record "U" [("t", .ref (.custom [.name "m", .name "T"]) false)]]])]]

theorem types_resolve_when_finished_nested :
    let type : Ty := .ref (.custom [.name "m", .name "T"]) false
    ∃ B e, (nestedTypes.analyzeBy .written {}).table.Within B ∧
      B.lookup (.name "U") = some e ∧ type ∈ e.kind.types ∧
      ∃ l ns s d, Checks {} .written nestedTypes l ns type s ∧
        s.table.resolve [.name "m", .name "T"] = some d ∧ d.kind.isType = true ∧
        B.resolve (s.table.canonical [.name "m", .name "T"]) = some d := by
  intro type
  have hok : (nestedTypes.analyzeBy .written {}).diagnostics.hasErrors = false := by decide +kernel
  have hheld : ((nestedTypes.analyzeBy .written {}).table.tableAt? [.name "o"]).any (fun B =>
      (B.lookup (.name "U")).any fun e => decide (type ∈ e.kind.types)) = true := by decide +kernel
  obtain ⟨B, hB, hU⟩ := (Option.any_eq_true _ _).1 hheld
  obtain ⟨e, he, htype⟩ := (Option.any_eq_true _ _).1 hU
  have htype := of_decide_eq_true htype
  have hwithin := Symbols.within_of_tableAt? hB
  obtain ⟨⟨l, ns, hv, hT⟩, hall⟩ := types_resolve_when_finished hok hwithin
    (Table.holds_of_lookup he) htype
  obtain ⟨⟨s, hc⟩, hnames⟩ := hall l ns hv hT
  obtain ⟨d, hd, hisType, hcanonical, -⟩ := hnames s hc _ (List.mem_singleton.2 rfl)
  exact ⟨B, e, hwithin, he, htype, l, ns, s, d, hc, hd, hisType, hcanonical⟩

/-- A struct in a function of which a parameter has the name of a module. -/
def hiddenModule : Node :=
  .ofChildren { kind := .program, loc := {} }
    [.inModule "m" [.record "T" [("a", .basic .i32)]], .record "T" [("b", .basic .bool)],
      .mk { kind := .funcDef, loc := {}, name := .name "f", type := .unit,
            params := [{ name := .name "m", type := .basic .i32 }] } [] []
        (.ofChildren { kind := .block, loc := {} }
          [.record "U" [("t", .custom [.name "m", .name "T"])]])]

/-- The struct is accepted with a field of the type `m::T`. In the finished table `m` is a module, and
`m::T` leads to the struct in it. When the field was looked up, `m` was the parameter, and `m::T` led
past it to the other struct. -/
theorem type_behind_parameter :
    let path : List Ident := [.name "m", .name "T"]
    let outcome := hiddenModule.analyzeBy .written {}
    outcome.diagnostics.hasErrors = false ∧
      (∃ e, outcome.table.Holds e ∧ .custom path ∈ e.kind.types) ∧
      (outcome.table.tableAt? path.dropLast).isSome = true ∧
      (outcome.table.resolve path).map (·.kind.types) = some [.basic .i32] ∧
      ∃ s, Checks {} .written hiddenModule 1000 hiddenModule.children (.custom path) s ∧
        (s.table.resolve path).map (·.kind.types) = some [.basic .bool] := by
  intro path outcome
  have hheld : (outcome.table.lookup (.name "U")).any (fun e =>
      decide (.custom path ∈ e.kind.types)) = true := by decide +kernel
  obtain ⟨e, he, htype⟩ := (Option.any_eq_true _ _).1 hheld
  refine ⟨by decide +kernel, ⟨e, Table.holds_of_lookup he, of_decide_eq_true htype⟩,
    by decide +kernel, by decide +kernel, ?_⟩
  have hprogram : Visits {} .written hiddenModule 1000 hiddenModule.children
    (.body 1000 hiddenModule.children) {} := .program rfl
  have hslots : lookAhead {} (belowAt {} .written 1000) hiddenModule.children
    = (hiddenModule.children.dropLast.map fun n => (none, n))
      ++ (none, hiddenModule.children.getLast!) :: [] := rfl
  have hbody := (hprogram.statement hslots).function rfl rfl rfl
  refine ⟨_, .queued hbody rfl (?_ : (Ty.custom path, ({} : Location)) ∈ _), ?_⟩
  · decide +kernel
  · decide +kernel

end Runs

end Analysis

end TreeSema
