import TreeSema.Proofs.Respect
import TreeSema.Proofs.Trace.Once
import TreeSema.Proofs.Verdict

/-!
# An expression in two states

A variable that is immutable and no reference gets a value once. Apart from warnings, this is all for
which it matters to an expression whether a variable has a value. So an expression can be followed in
two states at once, of which one lags behind the other: if it is accepted in the second, it is
accepted in the first; and if it is accepted in the first, it is in the second, unless it gives a
value to a variable that has one there. The outcome is the same.

* `Symbols.Spent`: a variable that gets a value once has one.
* `Tandem`: a step from a state, and one from a state behind which that lags.
* `Tandem.respected`, `exprAt_tandem`: expressions in two states.
-/
namespace TreeSema

namespace Symbols

variable {t t' : Symbols} {name other : Ident}

/-! ## Variables that get a value once -/

/-- A name stands for an immutable variable that is no reference and has a value. -/
def Spent (t : Symbols) (name : Ident) : Prop :=
  t.isFixed name = true ∧ (t.lookup name).any Entry.hasValue = true

theorem isFixed_filled (name : Ident) : t.filled.isFixed name = t.isFixed name := by
  unfold isFixed
  rw [lookup_filled]
  rcases t.lookup name with _ | ⟨name', static, kind, loc⟩
  · rfl
  · cases kind with
    | var v => simp only [Option.map_some, Entry.filled, ModuleBody.filledKind, underlying_filled]
    | moduleDef body => cases body <;> rfl
    | _ => rfl

theorem Lags.isFixed (h : t.Lags t') (name : Ident) : t.isFixed name = t'.isFixed name :=
  same_of_filled (fun _ => isFixed_filled) h.filled_eq name

/-- What is spent stays so. -/
theorem Lags.spent (h : t.Lags t') (hspent : t.Spent name) : t'.Spent name := by
  refine ⟨(h.isFixed name).symm.trans hspent.1, ?_⟩
  have hvalue := hspent.2
  rcases rel_cases (h.lookup name) with ⟨he, he'⟩ | ⟨e, e', he, he', hlags⟩
  all_goals rw [he] at hvalue; rw [he']
  · exact hvalue
  · exact hlags.value hvalue

theorem name_withValue (e : SymbolEntry) : e.withValue.name = e.name := by
  unfold Entry.withValue
  split <;> rfl

theorem isFixed_modify (t : Symbols) (name other : Ident) :
    isFixed (t.modify name .withValue) other = t.isFixed other :=
  ((Lags.withValue_right (.refl t) name).isFixed other).symm

/-- A variable that gets a value is spent if it gets one once. -/
theorem spent_modify : Spent (t.modify name .withValue) name ↔ t.isFixed name = true := by
  unfold Spent
  rw [isFixed_modify, Table.lookup_modify t name name_withValue]
  refine ⟨fun h => h.1, fun h => ⟨h, ?_⟩⟩
  obtain ⟨e, v, he, hv, -⟩ := Analysis.assignable_of_isFixed h
  simp [he, Entry.withValue, hv, Entry.hasValue]

theorem spent_modify_of_ne (hn : other ≠ name) :
    Spent (t.modify name .withValue) other ↔ t.Spent other := by
  unfold Spent
  rw [isFixed_modify, Table.lookup_modify_of_ne t name_withValue hn]

section Assignable

variable {e e' : SymbolEntry} {v v' : Variable} (he : t.lookup name = some e) (hv : e.kind = .var v)
  (op : String)

theorem assignable_filled (op : String) (name : Ident) (v : Variable) :
    t.filled.assignable op name v = t.assignable op name v := by
  unfold assignable
  rw [underlying_filled]

include he hv

/-- A variable that gets a value once is assigned to before it has one. -/
theorem assignable_of_fixed (h : t.isFixed name = true) : t.assignable op name v =
    if !v.initialized && op == "=" && v.storage == .automatic then .ok v.type
    else .error (.constMutation name) := by
  obtain ⟨d, w, hd, hw, -, hassignable⟩ := Analysis.assignable_of_isFixed h
  cases he.symm.trans hd
  cases hv.symm.trans hw
  exact hassignable op

theorem assignable_of_spent (h : t.Spent name) :
    t.assignable op name v = .error (.constMutation name) := by
  have hvalue : v.initialized = true := by simpa [he, Entry.hasValue, hv] using h.2
  rw [assignable_of_fixed he hv op h.1, hvalue]
  rfl

/-- For a variable that does not get a value once, it makes no difference whether it has one. -/
theorem assignable_of_not_isFixed (h : t.isFixed name = false) (value : Bool) :
    t.assignable op name { v with initialized := value } = t.assignable op name v := by
  obtain ⟨name', static, kind, loc⟩ := e
  obtain rfl : kind = .var v := hv
  unfold isFixed at h
  rw [he] at h
  unfold assignable
  dsimp only at h ⊢
  cases hmutable : v.mutable with
  | true => rfl
  | false =>
    rw [hmutable] at h
    cases hunder : t.underlying v.type with
    | ref target m => cases m <;> rfl
    | _ => rw [hunder] at h; cases h

/-- A variable is assigned to alike in two tables, unless it gets a value once and has it in the
second. -/
theorem Lags.assignable (h : t.Lags t') (he' : t'.lookup name = some e') (hv' : e'.kind = .var v')
    (hopen : t.isFixed name = true → ¬ t'.Spent name) :
    t.assignable op name v = t'.assignable op name v' := by
  have hrel := h.lookup name
  rw [he, he'] at hrel
  cases hrel with
  | some hlags =>
    obtain ⟨w, hw, htype, hmutable, hstorage, hvalue⟩ := hlags.var_left hv'
    cases hv.symm.trans hw
    cases hfixed : t.isFixed name with
    | false =>
      rw [← assignable_of_not_isFixed he hv op hfixed v'.initialized, htype, hmutable, hstorage]
      exact same_of_filled (q := fun t v => t.assignable op name v)
        (fun _ => assignable_filled op name) h.filled_eq v'
    | true =>
      have hfixed' := (h.isFixed name).symm.trans hfixed
      have hnone' : v'.initialized = false := by
        rw [← Bool.not_eq_true]
        exact fun hsome => hopen hfixed ⟨hfixed', by simp [he', Entry.hasValue, hv', hsome]⟩
      have hnone : v.initialized = false := by
        rw [← Bool.not_eq_true]
        exact fun hsome => Bool.false_ne_true (hnone'.symm.trans (hvalue hsome))
      rw [assignable_of_fixed he hv op hfixed, assignable_of_fixed he' hv' op hfixed', hnone, hnone',
        htype, hstorage]

end Assignable

end Symbols

namespace Analysis

variable {α β : Type}

/-! ## Two runs -/

theorem State.Clean.append {s : State} {fs} (hs : s.Clean)
    (hfs : ∀ f ∈ fs, f.cause.severity ≠ .error) :
    State.Clean { s with findings := s.findings ++ fs } :=
  ⟨List.forall_mem_append.2 ⟨hs.findings, hfs⟩, hs.depthReported⟩

theorem not_clean_report (loc : Location) {cause : Cause} (h : cause.severity = .error) (s : State) :
    ¬ (report loc cause s).2.Clean :=
  fun hclean => hclean.findings ⟨loc, cause⟩ (by simp [report_apply]) h

/-- What one run gives a value to has none before the other. -/
def Free (t : Symbols) (r : State) (t' : Symbols) : Prop :=
  ∀ name, t'.Spent name → r.table.Spent name → t.Spent name

/-- Of two runs, the second is accepted, or the first is and does not get in the way of what has a
value before the second. -/
def Allowed (t t' : Symbols) (r r' : State) : Prop := r'.Clean ∨ r.Clean ∧ Free t r t'

/-- Two runs that are accepted, from tables of which the first lags behind the second. Such a
variable has a value after the second if it had one before or has one after the first. -/
structure Joint (t t' : Symbols) (r r' : State) : Prop where
  clean : r.Clean
  clean' : r'.Clean
  lags : r.table.Lags r'.table
  spent : ∀ name, r'.table.Spent name → t'.Spent name ∨ r.table.Spent name
  free : Free t r t'

/-- A step only adds to what was found and to the variables that have a value. -/
structure Marking (m : Analysis α) : Prop where
  growing : Growing m
  keeps : ∀ s : State, s.table.Lags (m s).2.table

namespace Marking

theorem pure (a : α) : Marking (Pure.pure a) := ⟨.pure a, fun _ => .refl _⟩

theorem bind {m} {f : α → Analysis β} (hm : Marking m) (hf : ∀ a, Marking (f a)) :
    Marking (m >>= f) where
  growing := hm.growing.bind fun a => (hf a).growing
  keeps s := (hm.keeps s).trans ((hf _).keeps _)

theorem symbols {f : Symbols → Analysis β} (hf : ∀ t, Marking (f t)) :
    Marking (Analysis.symbols >>= f) :=
  bind ⟨growing_symbols, fun _ => .refl _⟩ hf

theorem report (loc : Location) (cause : Cause) : Marking (Analysis.report loc cause) :=
  ⟨growing_report loc cause, fun _ => .refl _⟩

/-- Nothing need be said of a second step. -/
theorem respected : Respected Eq fun _ m _ => Marking m :=
  .of_same pure bind ⟨growing_symbols, fun _ => .refl _⟩ fun loc cause _ => report loc cause

theorem assignName {below} (hb : ∀ n expected, Marking (below n expected)) (h target : Head)
    (value : Node) : Marking (Analysis.assignName below h target value) :=
  @Respected.assignName _ below below respected (fun name => ⟨growing_modifyTable _, fun s =>
    .withValue_right (.refl s.table) name⟩) hb h target value

end Marking

/-- A step that returns `a` and does no more than warn. -/
def Warns (m : Analysis α) (a : α) : Prop :=
  ∀ s, ∃ fs : List Finding, (∀ f ∈ fs, f.cause.severity ≠ .error) ∧
    m s = (a, { s with findings := s.findings ++ fs })

theorem Warns.pure (a : α) : Warns (Pure.pure a) a :=
  fun s => ⟨[], List.forall_mem_nil _, by rw [List.append_nil]; rfl⟩

theorem Warns.marking {m} {a : α} (h : Warns m a) : Marking m := by
  refine ⟨fun s => ?_, fun s => ?_⟩
  · obtain ⟨fs, -, hrun⟩ := h s
    rw [hrun]
    exact (State.Grows.refl s).append fs rfl rfl
  · obtain ⟨fs, -, hrun⟩ := h s
    rw [hrun]
    exact .refl _

/-- Two steps from states of which the first lags behind the second: if they are allowed they are
both accepted, with the same result. -/
structure Tandem (m m' : Analysis α) : Prop where
  left : Marking m
  right : Marking m'
  joint : ∀ {s s' : State}, s.table.Lags s'.table → s.Clean → s'.Clean →
    Allowed s.table s'.table (m s).2 (m' s').2 →
    (m s).1 = (m' s').1 ∧ Joint s.table s'.table (m s).2 (m' s').2

/-- What `Tandem` says of two states. -/
def Together (m m' : Analysis α) (s s' : State) : Prop :=
  s.table.Lags s'.table → s.Clean → s'.Clean → Allowed s.table s'.table (m s).2 (m' s').2 →
    (m s).1 = (m' s').1 ∧ Joint s.table s'.table (m s).2 (m' s').2

namespace Tandem

variable {m m' : Analysis α} {f f' : α → Analysis β}

theorem bind (hm : Tandem m m') (hf : ∀ a, Tandem (f a) (f' a)) : Tandem (m >>= f) (m' >>= f') where
  left := hm.left.bind fun a => (hf a).left
  right := hm.right.bind fun a => (hf a).right
  joint {s s'} hs hclean hclean' hallowed := by
    rw [bind_apply, bind_apply] at hallowed ⊢
    have hkeeps := (hf (m s).1).left.keeps (m s).2
    have hfirst : Allowed s.table s'.table (m s).2 (m' s').2 := by
      rcases hallowed with h | ⟨h, hfree⟩
      · exact .inl (((hf _).right.growing _).clean h)
      · exact .inr ⟨((hf _).left.growing _).clean h, fun x hx hx' => hfree x hx (hkeeps.spent hx')⟩
    obtain ⟨hresult, hjoint⟩ := hm.joint hs hclean hclean' hfirst
    rw [← hresult] at hallowed ⊢
    have hsecond : Allowed (m s).2.table (m' s').2.table (f (m s).1 (m s).2).2
        (f' (m s).1 (m' s').2).2 := by
      rcases hallowed with h | ⟨h, hfree⟩
      · exact .inl h
      · refine .inr ⟨h, fun x hx hx' => ?_⟩
        rcases hjoint.spent x hx with hx | hx
        · exact (hm.left.keeps s).spent (hfree x hx hx')
        · exact hx
    obtain ⟨hresult', hjoint'⟩ :=
      (hf (m s).1).joint hjoint.lags hjoint.clean hjoint.clean' hsecond
    refine ⟨hresult', hjoint'.clean, hjoint'.clean', hjoint'.lags, fun x hx => ?_, fun x hx hx' => ?_⟩
    · rcases hjoint'.spent x hx with hx | hx
      · exact (hjoint.spent x hx).imp_right hkeeps.spent
      · exact .inr hx
    · exact hjoint.free x hx (hjoint'.free x ((hm.right.keeps s').spent hx) hx')

theorem symbols {f f' : Symbols → Analysis β}
    (hf : ∀ {t t' : Symbols}, t.Lags t' → Tandem (f t) (f' t')) :
    Tandem (Analysis.symbols >>= f) (Analysis.symbols >>= f') where
  left := .symbols fun t => (hf (.refl t)).left
  right := .symbols fun t => (hf (.refl t)).right
  joint hs := (hf hs).joint hs

/-- Steps that do no more than warn. -/
theorem still {a : α} (h : Warns m a) (h' : Warns m' a) : Tandem m m' where
  left := h.marking
  right := h'.marking
  joint {s s'} hlags hs hs' _ := by
    obtain ⟨fs, hfs, hrun⟩ := h s
    obtain ⟨fs', hfs', hrun'⟩ := h' s'
    rw [hrun, hrun']
    exact ⟨rfl, hs.append hfs, hs'.append hfs', hlags, fun _ => .inl, fun _ _ hx => hx⟩

theorem pure (a : α) : Tandem (Pure.pure a) (Pure.pure a) := still (.pure a) (.pure a)

/-- Steps that are both rejected. -/
theorem rejected (hm : Marking m) (hm' : Marking m') (h : ∀ s, s.Clean → ¬ (m s).2.Clean)
    (h' : ∀ s, s.Clean → ¬ (m' s).2.Clean) : Tandem m m' where
  left := hm
  right := hm'
  joint {s s'} _ hs hs' hallowed := by
    rcases hallowed with hclean | ⟨hclean, -⟩
    · exact absurd hclean (h' s' hs')
    · exact absurd hclean (h s hs)

theorem report (loc loc' : Location) {cause cause' : Cause} (h : cause.severity = cause'.severity) :
    Tandem (Analysis.report loc cause) (Analysis.report loc' cause') := by
  by_cases herror : cause.severity = .error
  · exact rejected (.report _ _) (.report _ _) (fun s _ => not_clean_report loc herror s)
      fun s _ => not_clean_report loc' (h ▸ herror) s
  · exact still (fun s => ⟨[⟨loc, cause⟩], by simpa using herror, rfl⟩)
      fun s => ⟨[⟨loc', cause'⟩], by simpa [← h] using herror, rfl⟩

/-- Two variables that differ in having a value only are read alike. -/
theorem readEntry (loc : Location) (path : List Ident) {e e' : SymbolEntry}
    (h : e.filled = e'.filled) :
    Tandem (Analysis.readEntry loc path e) (Analysis.readEntry loc path e') := by
  have hread : ∀ v : Variable, Warns (do
      unless v.initialized do Analysis.report loc (.uninitialized path)
      return some v.type) (some v.type) := by
    intro v
    cases v.initialized with
    | true => exact .pure _
    | false => exact fun s => ⟨[⟨loc, .uninitialized path⟩], by simp [Cause.severity], rfl⟩
  unfold Analysis.readEntry
  rcases Entry.kind_cases_of_filled h with ⟨v, v', hv, hv', htype, -⟩ | ⟨b, b', hb, hb'⟩ | hkind
  · rw [hv, hv']
    exact still (hread v) (htype ▸ hread v')
  · rw [hb, hb']
    exact (report loc loc rfl).bind fun _ => pure _
  · rw [hkind]
    cases e'.kind with
    | var v => exact still (hread v) (hread v)
    | _ => exact (report loc loc rfl).bind fun _ => pure _

/-- Expressions may be followed in two states if those below them may, and assignments to names. -/
theorem respected : Respected Symbols.Lags fun _ m m' => Tandem m m' where
  filled := Symbols.Lags.filled_eq
  pure := pure
  bind := bind
  seeing := symbols
  report loc _ _ := report loc loc rfl
  read loc path {t t' e e'} ht he he' := by
    have hrel := Symbols.resolve_rel_of_filled ht.filled_eq path
    rw [he, he'] at hrel
    cases hrel with
    | some hfilled => exact readEntry loc path hfilled

end Tandem

/-! ## Assignments to names -/

/-- A step that has a bad verdict on its result has found an error. -/
theorem Concludes.ok_iff {m} {ok : α → Bool} (h : Concludes true m ok) {s : State} (hs : s.Clean) :
    ok (m s).1 = true ↔ (m s).2.Clean := by
  have hfinds := h s s (.refl s)
  constructor
  · intro hok
    rw [hok] at hfinds
    cases hfinds with
    | good findings warnings refused =>
      refine ⟨?_, refused.trans hs.depthReported⟩
      rw [findings]
      exact List.forall_mem_append.2 ⟨hs.findings, fun f hf => by simp [warnings f hf]⟩
  · intro hclean
    by_contra hbad
    rw [Bool.not_eq_true] at hbad
    rw [hbad] at hfinds
    cases hfinds with
    | bad findings error =>
      rcases error with ⟨f, hf, herror⟩ | hrefused
      · exact hclean.findings f (findings ▸ List.mem_append_right _ hf) herror
      · exact Bool.false_ne_true (hs.depthReported.symm.trans hrefused)

section Assignment

variable {below below' : ExprRule} {h target : Head} {value : Node} {s s' : State}
  {e : SymbolEntry} {v : Variable}

/-- A value that is accepted is stored. -/
theorem storeName_run (below : ExprRule) (h : Head) (name : Ident) (expected : Ty) (value : Node)
    (s : State) : storeName below h name expected value s =
      ((storedValue below h expected value s).1,
        if (storedValue below h expected value s).1.2 then
          (storedValue below h expected value s).2.marked name
        else (storedValue below h expected value s).2) := by
  unfold storeName
  rw [bind_apply]
  rcases storedValue below h expected value s with ⟨⟨value', _ | _⟩, s₁⟩ <;> rfl

/-- An assignment that finds nothing to assign to is rejected. -/
theorem assignName_rejected (hnone : ∀ e v, s.table.lookup target.name = some e → e.kind = .var v →
      ∃ cause, s.table.assignable h.op target.name v = .error cause) :
    ¬ (assignName below h target value s).2.Clean := by
  unfold assignName
  rw [bind_apply, symbols_apply]
  dsimp only
  cases he : s.table.lookup target.name with
  | none => exact not_clean_report _ rfl s
  | some e =>
    dsimp only
    cases hv : e.kind with
    | var v =>
      obtain ⟨cause, hcause⟩ := hnone e v he hv
      dsimp only
      rw [hcause]
      exact not_clean_report _ (by rcases assignable_cause hcause with rfl | rfl <;> rfl) s
    | _ => exact not_clean_report _ rfl s

/-- An assignment that is not rejected stores the value, perhaps after a warning. -/
theorem assignName_stores (below : ExprRule) (value : Node) {expected}
    (he : s.table.lookup target.name = some e) (hv : e.kind = .var v)
    (hok : s.table.assignable h.op target.name v = .ok expected) (hs : s.Clean) :
    ∃ s₁ : State, s₁.table = s.table ∧ s₁.Clean ∧
      assignName below h target value s = storeName below h target.name expected value s₁ := by
  unfold assignName
  rw [bind_apply, symbols_apply]
  dsimp only
  rw [he]
  dsimp only
  rw [hv]
  dsimp only
  rw [hok]
  dsimp only
  split
  · exact ⟨{ s with findings := s.findings ++ [⟨target.loc, .uninitialized [target.name]⟩] }, rfl,
      hs.append (by simp [Cause.severity]), rfl⟩
  · exact ⟨s, rfl, hs, rfl⟩

theorem assignName_refused {cause} (he : s.table.lookup target.name = some e) (hv : e.kind = .var v)
    (hcause : s.table.assignable h.op target.name v = .error cause) :
    ¬ (assignName below h target value s).2.Clean := by
  refine assignName_rejected fun d w hd hw => ⟨cause, ?_⟩
  cases he.symm.trans hd
  cases hv.symm.trans hw
  exact hcause

variable (hb : below.Concludes) (hm : ∀ n expected, Tandem (below n expected) (below' n expected))

include hb hm

/-- A value is stored in a variable that does not get a value once or has none yet. -/
theorem storeName_joint (h : Head) (name : Ident) (expected : Ty) (value : Node)
    (hopen : s.table.isFixed name = true → ¬ s'.table.Spent name) :
    Together (storeName below h name expected value) (storeName below' h name expected value)
      s s' := by
  intro hlags hs hs' hallowed
  have hvalue := Tandem.respected.storedValue hm h expected value
  have hclean : ∀ {r : State} {ok : Bool}, State.Clean (if ok then r.marked name else r) →
      r.Clean := by
    intro r ok hr
    cases ok with
    | true => exact ⟨hr.findings, hr.depthReported⟩
    | false => exact hr
  rw [storeName_run, storeName_run] at hallowed ⊢
  have hinner : Allowed s.table s'.table (storedValue below h expected value s).2
      (storedValue below' h expected value s').2 := by
    rcases hallowed with hr | ⟨hr, hfree⟩
    · exact .inl (hclean hr)
    · refine .inr ⟨hclean hr, fun x hx hx' => hfree x hx ?_⟩
      dsimp only
      split
      · exact (Symbols.Lags.withValue_right (.refl _) name).spent hx'
      · exact hx'
  obtain ⟨hresult, hjoint⟩ := hvalue.joint hlags hs hs' hinner
  have hok := ((storedValue_concludes hb h expected value).ok_iff hs).2 hjoint.clean
  dsimp only
  rw [← hresult, if_pos hok, if_pos hok]
  refine ⟨rfl, ⟨hjoint.clean.findings, hjoint.clean.depthReported⟩,
    ⟨hjoint.clean'.findings, hjoint.clean'.depthReported⟩, hjoint.lags.withValue name,
    fun x hx => ?_, fun x hx hx' => ?_⟩
  · by_cases hn : x = name
    · subst hn
      have hfixed := Symbols.spent_modify.1 hx
      rw [← hjoint.lags.isFixed] at hfixed
      exact .inr (Symbols.spent_modify.2 hfixed)
    · refine (hjoint.spent x ((Symbols.spent_modify_of_ne hn).1 hx)).imp_right fun hx => ?_
      exact (Symbols.spent_modify_of_ne hn).2 hx
  · by_cases hn : x = name
    · subst hn
      have hfixed := Symbols.spent_modify.1 hx'
      rw [← (hvalue.left.keeps s).isFixed] at hfixed
      exact absurd hx (hopen hfixed)
    · exact hjoint.free x hx ((Symbols.spent_modify_of_ne hn).1 hx')

/-- An assignment to a variable that does not get a value once or has none yet. -/
theorem assignName_joint_of_open {e' : SymbolEntry} {v'} (he : s.table.lookup target.name = some e)
    (hv : e.kind = .var v) (he' : s'.table.lookup target.name = some e') (hv' : e'.kind = .var v')
    (hopen : s.table.isFixed target.name = true → ¬ s'.table.Spent target.name) :
    Together (assignName below h target value) (assignName below' h target value) s s' := by
  intro hlags hs hs' hallowed
  have hsame := hlags.assignable he hv h.op he' hv' hopen
  cases hok : s.table.assignable h.op target.name v with
  | error cause =>
    rcases hallowed with hclean | ⟨hclean, -⟩
    · exact absurd hclean (assignName_refused he' hv' (hsame ▸ hok))
    · exact absurd hclean (assignName_refused he hv hok)
  | ok expected =>
    obtain ⟨s₁, htable, hs₁, hrun⟩ := assignName_stores below value he hv hok hs
    obtain ⟨s₁', htable', hs₁', hrun'⟩ := assignName_stores below' value he' hv' (hsame ▸ hok) hs'
    rw [hrun, hrun', ← htable, ← htable'] at hallowed ⊢
    exact storeName_joint hb hm h target.name expected value (htable ▸ htable' ▸ hopen)
      (htable ▸ htable' ▸ hlags) hs₁ hs₁' hallowed

/-- A variable that gets a value once is spent once it is assigned to. -/
theorem assignName_spends (hs : s.Clean) (hfixed : s.table.isFixed target.name = true)
    (hclean : (assignName below h target value s).2.Clean) :
    (assignName below h target value s).2.table.Spent target.name := by
  obtain ⟨e, v, he, hv, -, hassignable⟩ := assignable_of_isFixed hfixed
  cases hok : s.table.assignable h.op target.name v with
  | error cause => exact absurd hclean (assignName_refused he hv hok)
  | ok expected =>
    obtain ⟨s₁, htable, hs₁, hrun⟩ := assignName_stores below value he hv hok hs
    rw [hrun] at hclean ⊢
    have hstored := ((storeName_concludes hb h target.name expected value).ok_iff hs₁).2 hclean
    rw [storeName_run] at hstored ⊢
    dsimp only at hstored ⊢
    rw [if_pos hstored]
    have hkeeps := (Tandem.respected.storedValue hm h expected value).left.keeps s₁
    rw [htable] at hkeeps
    exact Symbols.spent_modify.2 ((hkeeps.isFixed _).symm.trans hfixed)

/-- A name may be assigned to in two states. -/
theorem assignName_joint (h target : Head) (value : Node) :
    Together (assignName below h target value) (assignName below' h target value) s s' := by
  intro hlags hs hs' hallowed
  have hrel := hlags.lookup target.name
  by_cases hvar : ∃ e' v', s'.table.lookup target.name = some e' ∧ e'.kind = .var v'
  · obtain ⟨e', v', he', hv'⟩ := hvar
    rw [he'] at hrel
    generalize he : s.table.lookup target.name = o at hrel
    cases hrel with
    | @some e _ helags =>
      obtain ⟨v, hv, -⟩ := helags.var_left hv'
      by_cases hopen : s.table.isFixed target.name = true → ¬ s'.table.Spent target.name
      · exact assignName_joint_of_open hb hm he hv he' hv' hopen hlags hs hs' hallowed
      · -- the second is rejected, and so is the first, which would give a value once more
        simp only [not_forall, not_not] at hopen
        obtain ⟨hfixed, hspent'⟩ := hopen
        rcases hallowed with hclean | ⟨hclean, hfree⟩
        · have hrefused := Symbols.assignable_of_spent he' hv' h.op hspent'
          exact absurd hclean (assignName_refused he' hv' hrefused)
        · have hspent := hfree _ hspent' (assignName_spends hb hm hs hfixed hclean)
          have hrefused := Symbols.assignable_of_spent he hv h.op hspent
          exact absurd hclean (assignName_refused he hv hrefused)
  · have hnone : ∀ e v, s.table.lookup target.name = some e → e.kind ≠ .var v := by
      intro e v he hv
      rw [he] at hrel
      generalize he' : s'.table.lookup target.name = o at hrel
      cases hrel with
      | some helags =>
        obtain ⟨v', hv', -⟩ := Entry.var_of_filled helags.filled.symm hv
        exact hvar ⟨_, v', he', hv'⟩
    rcases hallowed with hclean | ⟨hclean, -⟩
    · exact absurd hclean (assignName_rejected fun e v he hv => absurd ⟨e, v, he, hv⟩ hvar)
    · exact absurd hclean (assignName_rejected fun e v he hv => absurd hv (hnone e v he))

theorem assignName_tandem (h target : Head) (value : Node) :
    Tandem (assignName below h target value) (assignName below' h target value) where
  left := .assignName (fun n expected => (hm n expected).left) h target value
  right := .assignName (fun n expected => (hm n expected).right) h target value
  joint := assignName_joint hb hm h target value

end Assignment

/-! ## Expressions -/

/-- An expression may be followed in two states, with any number of levels left. -/
theorem exprAt_tandem (cfg : Config) : ∀ (k : Nat) (n : Node) (expected : Ty),
    Tandem (exprAt cfg k n expected) (exprAt cfg k n expected)
  | 0, n, expected => by
    have hmarking : Marking (exprAt cfg 0 n expected) :=
      ⟨growing_exprAt cfg 0 n expected, fun s => (exprAt_marks cfg 0 n expected s).table⟩
    have hrefused : ∀ s : State, s.Clean → ¬ (exprAt cfg 0 n expected s).2.Clean := fun s hs hclean =>
      Bool.false_ne_true (((exprAt_concludes cfg 0 n expected).ok_iff hs).2 hclean)
    exact .rejected hmarking hmarking hrefused hrefused
  | k + 1, n, expected =>
    have hbelow := exprAt_tandem cfg k
    Tandem.respected.exprStep hbelow (assignName_tandem (exprAt_concludes cfg k) hbelow) expected n

end Analysis

end TreeSema
