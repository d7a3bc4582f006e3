import TreeSema.Proofs.Lags

/-!
# Runs that end without errors

A run that ends in a clean state has gone through clean states only, so that none of its steps has
rejected anything. `Passes m Q` says what is known of such a run of a step.

* `Passes.bind`: a clean run of two steps in a row is a clean run of each.
* `Passes.rejects`: a step that reports an error has no clean run.
* `accepts_passes`, `fieldType_passes`, …: a check that has a clean run accepts.
* `fieldType_returns`, `elementType_returns`, …: what a check that accepts has found, in any run.
-/
namespace TreeSema.Analysis

variable {α β : Type}

/-- A run of a step that ends in a clean state. -/
structure CleanRun (m : Analysis α) (s : State) (a : α) (s' : State) : Prop where
  run : m s = (a, s')
  clean : s'.Clean

/-- A step only adds to what was found, and this is known of its runs that end in a clean state. -/
structure Passes (m : Analysis α) (Q : State → α → State → Prop) : Prop where
  growing : Growing m
  post : ∀ s, (m s).2.Clean → Q s (m s).1 (m s).2

/-- A result with a type, or whatever else is returned if nothing was rejected. -/
inductive Accepted (J : α → β → Prop) : α × Option β → Prop
  | mk {a b} (h : J a b) : Accepted J (a, some b)

/-- A result without a type that was not rejected. -/
inductive Approved (J : α → Prop) : α × Bool → Prop
  | mk {a} (h : J a) : Approved J (a, true)

theorem not_clean_of_error {s : State} {f : Finding} (hf : f ∈ s.findings)
    (herror : f.cause.severity = .error) : ¬ s.Clean := fun h => h.findings f hf herror

namespace Passes

variable {m : Analysis α} {f : α → Analysis β} {P P' : State → α → State → Prop}
  {Q : State → β → State → Prop}

theorem pure {a : α} (h : ∀ s, s.Clean → P s a s) : Passes (Pure.pure a) P :=
  ⟨.pure a, h⟩

theorem bind (hm : Passes m P) (hf : ∀ a, Passes (f a) fun s₁ b s₂ => ∀ s, P s a s₁ → Q s b s₂) :
    Passes (m >>= f) Q := by
  refine ⟨hm.growing.bind fun a => (hf a).growing, fun s hs => ?_⟩
  have hclean : (m s).2.Clean := ((hf (m s).1).growing (m s).2).clean hs
  exact (hf (m s).1).post (m s).2 hs s (hm.post s hclean)

theorem mono (hm : Passes m P) (h : ∀ s a s', P s a s' → P' s a s') : Passes m P' :=
  ⟨hm.growing, fun s hs => h _ _ _ (hm.post s hs)⟩

/-- The run itself is known too. -/
theorem run (hm : Passes m P) : Passes m fun s a s' => CleanRun m s a s' ∧ P s a s' :=
  ⟨hm.growing, fun s hs => ⟨⟨rfl, hs⟩, hm.post s hs⟩⟩

theorem of_run (hm : Passes m P) {s s'} {a : α} (hrun : CleanRun m s a s') : P s a s' := by
  have h := hm.post s (by rw [hrun.run]; exact hrun.clean)
  rwa [hrun.run] at h

/-- A step that reports an error has no clean run. -/
theorem reports {m} (hm : Growing m) (loc : Location) {cause : Cause}
    (herror : cause.severity = .error) : Passes (do report loc cause; m) P := by
  refine ⟨(growing_report loc cause).bind fun _ => hm, fun s hs => ?_⟩
  have hfound : ⟨loc, cause⟩ ∈ (report loc cause s).2.findings := by simp [report_apply]
  exact absurd ((hm (report loc cause s).2).clean hs) (not_clean_of_error hfound herror)

theorem rejects (loc : Location) {cause : Cause} (herror : cause.severity = .error) (a : α) :
    Passes (do report loc cause; return a) P := reports (.pure a) loc herror

/-- A step that looks at the table. -/
theorem symbols {f : Symbols → Analysis β}
    (hf : ∀ t, Passes (f t) fun s b s' => s.table = t → Q s b s') :
    Passes (Analysis.symbols >>= f) Q :=
  ⟨growing_symbols.bind fun t => (hf t).growing, fun s hs => (hf s.table).post s hs rfl⟩

/-- A step that looks at the state. -/
theorem get {f : State → Analysis β} (hf : ∀ s₀, Passes (f s₀) fun s b s' => s = s₀ → Q s b s') :
    Passes (MonadState.get >>= f) Q :=
  ⟨growing_get.bind fun s => (hf s).growing, fun s hs => (hf s).post s hs rfl⟩

/-- A step that is known to keep the state up to marks. -/
theorem marks (hm : Passes m P) (hmarks : ∀ s : State, s.Marks (m s).2) :
    Passes m fun s a s' => P s a s' ∧ s.Marks s' :=
  ⟨hm.growing, fun s hs => ⟨hm.post s hs, hmarks s⟩⟩

section Results

variable {γ : Type} {Q : State → γ → State → Prop}

/-- In a clean run the step after a result that may be rejected has an accepted one. -/
theorem accepted {m} {J : State → α → β → State → Prop} {f : α × Option β → Analysis γ}
    (hm : Passes m fun s r s' => Accepted (fun a b => J s a b s') r)
    (hnone : ∀ a, Growing (f (a, none)))
    (hf : ∀ a b, Passes (f (a, some b)) fun s₁ c s₂ => ∀ s, J s a b s₁ → Q s c s₂) :
    Passes (m >>= f) Q := by
  refine hm.bind fun ⟨a, o⟩ => ?_
  cases o with
  | none => exact ⟨hnone a, fun _ _ _ => nofun⟩
  | some b => exact (hf a b).mono fun _ _ _ h s ⟨hJ⟩ => h s hJ

theorem approved {m} {J : State → α → State → Prop} {f : α × Bool → Analysis γ}
    (hm : Passes m fun s r s' => Approved (fun a => J s a s') r)
    (hfalse : ∀ a, Growing (f (a, false)))
    (hf : ∀ a, Passes (f (a, true)) fun s₁ c s₂ => ∀ s, J s a s₁ → Q s c s₂) :
    Passes (m >>= f) Q := by
  refine hm.bind fun ⟨a, ok⟩ => ?_
  cases ok with
  | false => exact ⟨hfalse a, fun _ _ _ => nofun⟩
  | true => exact (hf a).mono fun _ _ _ h s ⟨hJ⟩ => h s hJ

/-- A check that finds something in every clean run. -/
theorem found {m} {f : Option β → Analysis γ} (hm : Passes m fun _ r _ => r.isSome = true)
    (hnone : Growing (f none))
    (hf : ∀ b, Passes (f (some b)) fun s₁ c s₂ => ∀ s, CleanRun m s (some b) s₁ → Q s c s₂) :
    Passes (m >>= f) Q := by
  refine hm.run.bind fun o => ?_
  cases o with
  | none => exact ⟨hnone, fun _ _ _ h => nomatch h.2⟩
  | some b => exact (hf b).mono fun _ _ _ h s hrun => h s hrun.1

end Results

/-- What was approved, by a step that is known to keep the state up to marks. -/
theorem approved_marks {m} {J : State → α → State → Prop}
    (hm : Passes m fun s r s' => Approved (fun a => J s a s') r)
    (hmarks : ∀ s : State, s.Marks (m s).2) :
    Passes m fun s r s' => Approved (fun a => J s a s' ∧ s.Marks s') r :=
  (hm.marks hmarks).mono fun _ _ _ ⟨⟨hJ⟩, hs⟩ => .mk ⟨hJ, hs⟩

end Passes

/-! ## Checks -/

/-- A node that is refused for its depth leaves a state that is not clean. -/
theorem refuse_passes {P : State → Unit → State → Prop} (cfg : Config) (loc : Location) :
    Passes (refuse cfg loc) P := by
  refine ⟨growing_refuse cfg loc, fun s hs => ?_⟩
  have hd : (refuse cfg loc s).2.depthReported = true := by
    cases hd : s.depthReported <;>
      simp [refuse, bind_apply, get_apply, modify_apply, report_apply, pure_apply, hd]
  exact absurd (hs.depthReported.symm.trans hd) (by simp)

theorem accepts_passes (expected actual : Ty) (loc : Location) :
    Passes (accepts expected actual loc) fun s ok s' =>
      ok = true ∧ s' = s ∧ s.table.compatible expected actual = true := by
  refine .symbols fun t => ?_
  split
  · rename_i hc
    exact .pure fun s _ ht => ⟨rfl, rfl, ht ▸ hc⟩
  · exact .rejects loc rfl false

theorem accepts_bind {γ : Type} {Q : State → γ → State → Prop} {f : Bool → Analysis γ}
    {expected actual loc} (hfalse : Growing (f false))
    (hf : Passes (f true) fun s c s' => s.table.compatible expected actual = true → Q s c s') :
    Passes (accepts expected actual loc >>= f) Q := by
  refine (accepts_passes expected actual loc).bind fun ok => ?_
  cases ok with
  | false => exact ⟨hfalse, fun _ _ _ h => nomatch h.1⟩
  | true =>
    refine hf.mono fun _ _ _ h _ hok => ?_
    obtain ⟨-, rfl, hc⟩ := hok
    exact h hc

theorem elementType_passes (type : Ty) (loc : Location) :
    Passes (elementType type loc) fun _ r _ => r.isSome = true := by
  refine .symbols fun t => ?_
  split
  · exact .pure fun _ _ _ => rfl
  · exact .pure fun _ _ _ => rfl
  · exact .rejects loc rfl none

theorem unsafeAllowed_passes : Passes unsafeAllowed fun s _ s' => s' = s :=
  .symbols fun _ => .pure fun _ _ _ => rfl

theorem fieldType_passes (type : Ty) (name : Ident) (loc : Location) :
    Passes (fieldType type name loc) fun _ r _ => r.isSome = true := by
  refine .symbols fun t => ?_
  dsimp only
  split
  · split
    · refine unsafeAllowed_passes.bind fun allowed => ?_
      split
      · exact .rejects loc rfl none
      · exact .pure fun _ _ _ _ _ => rfl
    · exact .rejects loc rfl none
  · exact .rejects loc rfl none

/-- Reading a variable without a value is worth a warning only. -/
theorem readEntry_passes (loc : Location) (path : List Ident) (e : SymbolEntry) :
    Passes (readEntry loc path e) fun _ r _ => r.isSome = true := by
  unfold readEntry
  split
  · dsimp only
    split
    · exact .pure fun _ _ => rfl
    · exact ⟨(growing_report _ _).bind fun _ => .pure _, fun _ _ => rfl⟩
  · exact .rejects loc rfl none

theorem readName_passes (h : Head) : Passes (readName h) fun _ r _ => r.isSome = true := by
  refine .symbols fun t => ?_
  split
  · exact .rejects h.loc rfl none
  · exact (readEntry_passes _ _ _).mono fun _ _ _ hr _ => hr

theorem binaryType_passes (h : Head) (type : Ty) :
    Passes (binaryType h type) fun _ r _ => r.isSome = true := by
  unfold binaryType
  split
  · exact .pure fun _ _ => rfl
  · refine .symbols fun t => ?_
    split
    · exact .rejects h.loc rfl none
    · exact .pure fun _ _ _ => rfl

theorem entryPlace_passes (loc : Location) (path : List Ident) (found : Option SymbolEntry) :
    Passes (entryPlace loc path found) fun s r s' => ∃ e v, found = some e ∧ e.kind = .var v ∧
      r = some ⟨path.getLastD .missing, v.type, v.mutable, false⟩ ∧ s' = s := by
  unfold entryPlace
  split
  · exact .rejects loc rfl none
  · split
    · rename_i hv
      exact .pure fun _ _ => ⟨_, _, rfl, hv, rfl, rfl⟩
    · exact .rejects loc rfl none

theorem elementsPlace_passes (loc : Location) (p : Place) :
    Passes (elementsPlace loc p) fun _ r _ => r.isSome = true := by
  refine .symbols fun t => ?_
  split
  · exact .pure fun _ _ _ => rfl
  · exact (elementType_passes _ _).bind fun elem => .pure fun _ _ _ he _ => by
      rw [Option.isSome_map]; exact he

theorem pointeePlace_passes (loc : Location) (root : Ident) (type : Ty) :
    Passes (pointeePlace loc root type) fun _ r _ => r.isSome = true := by
  refine .symbols fun t => ?_
  split
  · exact .pure fun _ _ _ => rfl
  · exact .pure fun _ _ _ => rfl
  · exact .rejects loc rfl none

theorem missingOperand_passes {P : State → List Node × α → State → Prop} (loc : Location)
    (cs : List Node) (failed : α) : Passes (missingOperand loc cs failed) P :=
  .rejects loc rfl _

mutual

theorem checkType_passes (loc : Location) :
    ∀ t : Ty, Passes (checkType loc t) fun _ ok _ => ok = true
  | .custom path => by
    refine .symbols fun t => ?_
    split
    · exact .rejects loc rfl false
    · split
      all_goals first
        | exact .pure fun _ _ _ => rfl
        | exact .rejects loc rfl false
  | .ref t _ => checkType_passes loc t
  | .ptr t => checkType_passes loc t
  | .array _ t => checkType_passes loc t
  | .tuple ts => checkTypes_passes loc ts
  | .template _ ts => checkTypes_passes loc ts
  | .unknown => .pure fun _ _ => rfl
  | .basic _ => .pure fun _ _ => rfl
  | .unit => .pure fun _ _ => rfl

theorem checkTypes_passes (loc : Location) :
    ∀ ts : List Ty, Passes (checkTypes loc ts) fun _ ok _ => ok = true
  | [] => .pure fun _ _ => rfl
  | t :: ts =>
    (checkType_passes loc t).bind fun ok => (checkTypes_passes loc ts).bind fun rest =>
      .pure fun _ _ _ hrest _ hok => by rw [hrest, hok]; rfl

end

theorem countArguments_passes (loc : Location) (path : List Ident) (sig : Signature)
    (count : Nat) :
    Passes (countArguments loc path sig count) fun s ok s' => ok = true ∧ s' = s := by
  unfold countArguments
  dsimp only
  split
  · split
    · exact .rejects loc rfl false
    · exact .pure fun _ _ => ⟨rfl, rfl⟩
  · split
    · exact .rejects loc rfl false
    · exact .pure fun _ _ => ⟨rfl, rfl⟩

/-! ## Results of steps -/

/-- Whatever state a step starts in, this is known of its result and of the state it ends in. -/
def Returns (m : Analysis α) (Q : State → α → State → Prop) : Prop :=
  ∀ s, Q s (m s).1 (m s).2

namespace Returns

variable {m : Analysis α} {f : α → Analysis β} {P P' : State → α → State → Prop}
  {Q : State → β → State → Prop}

theorem pure {a : α} (h : ∀ s, P s a s) : Returns (Pure.pure a) P := h

theorem bind (hm : Returns m P) (hf : ∀ a, Returns (f a) fun s₁ b s₂ => ∀ s, P s a s₁ → Q s b s₂) :
    Returns (m >>= f) Q := fun s => hf (m s).1 (m s).2 s (hm s)

/-- The run itself. -/
theorem run (m : Analysis α) : Returns m fun s a s' => m s = (a, s') := fun _ => rfl

theorem symbols {f : Symbols → Analysis β}
    (hf : ∀ t, Returns (f t) fun s b s' => s.table = t → Q s b s') :
    Returns (Analysis.symbols >>= f) Q := fun s => hf s.table s rfl

theorem mono (hm : Returns m P) (h : ∀ s a s', P s a s' → P' s a s') : Returns m P' :=
  fun s => h _ _ _ (hm s)

/-- A step that reports something and gives up. -/
theorem report {loc cause} {a : α} (h : ∀ s s', P s a s') :
    Returns (do Analysis.report loc cause; return a) P := fun _ => h _ _

theorem of_run (hm : Returns m P) {s s'} {a : α} (hrun : m s = (a, s')) : P s a s' := by
  have h := hm s
  rwa [hrun] at h

end Returns

/-- An accepted field is found in the record that a type leads to, and if that is a union, where
unsafe operations are allowed. -/
theorem fieldType_returns (type : Ty) (name : Ident) (loc : Location) :
    Returns (fieldType type name loc) fun s r s' => ∀ field, r = some field → s' = s ∧ ∃ rec ty,
      s.table.record? (s.table.pointee type) = some rec ∧ rec.fields.get? name = some ty ∧
      (rec.union = true → s.table.context.safety = .unsafely) ∧
      field = s.table.qualifyAt rec.path ty := by
  refine .symbols fun t => ?_
  dsimp only
  split
  · rename_i rec hrec
    split
    · rename_i ty hty
      refine Returns.bind (P := fun s allowed s' => s' = s ∧
        (allowed = true → s.table.context.safety = .unsafely))
        (fun s => ⟨rfl, fun h => beq_iff_eq.1 h⟩) fun allowed => ?_
      split
      · exact .report fun _ _ _ _ _ => nofun
      · rename_i hallowed
        refine .pure fun s₁ s hs ht field hfield => ?_
        cases hfield
        obtain ⟨rfl, hsafe⟩ := hs
        subst ht
        refine ⟨rfl, rec, ty, hrec, hty, fun hunion => hsafe ?_, rfl⟩
        simpa [hunion] using hallowed
    · exact .report fun _ _ _ => nofun
  · exact .report fun _ _ _ => nofun

theorem elementType_returns (type : Ty) (loc : Location) :
    Returns (elementType type loc) fun s r s' => ∀ elem, r = some elem → s' = s ∧
      ((∃ size, s.table.underlying type = .array size elem) ∨
        s.table.underlying type = .ptr elem) := by
  refine .symbols fun t => ?_
  split
  · rename_i hu
    refine .pure fun s ht elem helem => ?_
    cases helem
    exact ⟨rfl, .inl ⟨_, ht ▸ hu⟩⟩
  · rename_i hu
    refine .pure fun s ht elem helem => ?_
    cases helem
    exact ⟨rfl, .inr (ht ▸ hu)⟩
  · exact .report fun _ _ _ => nofun

theorem readEntry_returns (loc : Location) (path : List Ident) (e : SymbolEntry) :
    Returns (readEntry loc path e) fun _ r _ => ∀ type, r = some type →
      ∃ v, e.kind = .var v ∧ type = v.type := by
  unfold readEntry
  split
  · rename_i v hv
    dsimp only
    split
    all_goals
      intro s type htype
      cases htype
      exact ⟨v, hv, rfl⟩
  · exact .report fun _ _ => nofun

theorem readName_returns (h : Head) : Returns (readName h) fun s r _ => ∀ type, r = some type →
    ∃ e v, s.table.lookup h.name = some e ∧ e.kind = .var v ∧ type = v.type := by
  refine .symbols fun t => ?_
  split
  · exact .report fun _ _ _ _ => nofun
  · rename_i e he
    refine (readEntry_returns _ _ e).mono fun s r _ h ht type htype => ?_
    obtain ⟨v, hv, rfl⟩ := h type htype
    exact ⟨e, v, ht ▸ he, hv, rfl⟩

/-- The elements of a place are in it, or where a pointer leads to. -/
theorem elementsPlace_returns (loc : Location) (q : Place) :
    Returns (elementsPlace loc q) fun s r s' => ∀ p, r = some p → s' = s ∧
      ((∃ size elem, s.table.underlying q.type = .array size elem ∧ p = { q with type := elem }) ∨
        ∃ target, s.table.underlying q.type = .ptr target ∧
          p = { q with type := target, writable := true, viaRef := false }) := by
  refine .symbols fun t => ?_
  split
  · rename_i target hu
    refine .pure fun s ht p hp => ?_
    cases hp
    exact ⟨rfl, .inr ⟨target, ht ▸ hu, rfl⟩⟩
  · rename_i hptr
    refine (elementType_returns _ _).bind fun elem => .pure fun _ s helem ht p hp => ?_
    obtain ⟨elem, rfl, rfl⟩ := Option.map_eq_some_iff.1 hp
    obtain ⟨rfl, ⟨size, hu⟩ | hu⟩ := helem elem rfl
    · exact ⟨rfl, .inl ⟨size, elem, hu, rfl⟩⟩
    · exact absurd (ht ▸ hu) (hptr elem)

theorem pointeePlace_returns (loc : Location) (root : Ident) (type : Ty) :
    Returns (pointeePlace loc root type) fun s r s' => ∀ p, r = some p → s' = s ∧
      ((∃ m, s.table.underlying type = .ref p.type m) ∨ s.table.underlying type = .ptr p.type) := by
  refine .symbols fun t => ?_
  split
  · rename_i hu
    refine .pure fun s ht p hp => ?_
    cases hp
    exact ⟨rfl, .inl ⟨_, ht ▸ hu⟩⟩
  · rename_i hu
    refine .pure fun s ht p hp => ?_
    cases hp
    exact ⟨rfl, .inr (ht ▸ hu)⟩
  · exact .report fun _ _ _ _ => nofun

end TreeSema.Analysis
