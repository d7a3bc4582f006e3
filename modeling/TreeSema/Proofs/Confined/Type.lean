import TreeSema.Proofs.Again.Expr
import TreeSema.Proofs.Confined.Rules

/-!
# Analysis finds the types that the rules say

An expression that is analysed without errors has the type that `Symbols.HasType` gives it, and so
has the place that is the target of an assignment. What a chain makes is not told by the rules of
acceptance, and is read off the analysis of chains here, with whether it was allowed.

* `HasType.name_unique`: a name or a path has one type, that of what it leads to.
* `HasType.lags`: which variables have a value makes no difference to types.
* `exprAt_means`: what a chain makes has the type of what it names, and is allowed.
* `Accepts.typed`, `PlaceOf.typed`: an expression has the type that the rules say, if those below do.
* `exprAt_typed`: the same at every level.
-/
namespace TreeSema

/-- A node is no chain unless it is a name, an access, a call or a literal. -/
theorem Node.chain?_eq_none {h : Head} {cs fs b} (hname : h.kind ≠ .ident)
    (hk : h.kind.isChain = false) : (mk h cs fs b).chain? = none := by
  refine Option.eq_none_iff_forall_ne_some.2 fun c hchain => ?_
  have hnot := mt Kind.isChain_iff.2 (Bool.eq_false_iff.1 hk)
  cases chain?_eq_some_iff.1 hchain with
  | name hk => exact hname hk
  | built hk => exact hnot (hk.imp_right .inl)
  | access hk => exact hnot (.inr (.inr hk))

namespace Symbols

variable {t t' : Symbols}

theorem selectsField_read {n} : t.SelectsField .read n ↔ t.IsMember n := by
  simp [SelectsField, IsMember]

theorem selectsField_write {n : Node} : t.SelectsField .write n ↔ n.kind? = some .dot := by
  simp [SelectsField]

theorem not_selectsField {h : Head} {kind} (hkind : h.kind = kind) (hne : kind ≠ .dot)
    {use cs fs b} : ¬ t.SelectsField use (.mk h cs fs b) :=
  fun hfield => hne (hkind.symm.trans (Option.some.inj hfield.1))

theorem resolve_singleton (t : Symbols) (name : Ident) : t.resolve [name] = t.lookup name := by
  unfold resolve Table.resolveBy
  cases t.lookup name <;> rfl

/-! ## Forms of expressions -/

namespace HasType

variable {use : Use} {n base left b rb : Node} {type type' : Ty} {h r : Head}
  {cs rcs rest : List Node} {fs rfs : List (Component Node)}

/-- The name of a variable has its type. -/
theorem of_name (hk : h.kind = .ident) {e : SymbolEntry} {v : Variable}
    (he : t.lookup h.name = some e) (hv : e.kind = .var v) : t.HasType use (.mk h cs fs b) v.type :=
  .variable (not_selectsField hk (by simp)) (Node.chain?_eq_some_iff.2 (.name hk))
    ((resolve_singleton t _).trans he) hv

/-- A name or a path has the type of what it leads to. -/
theorem name_inv (ht : t.HasType use n type) (hfield : ¬ t.SelectsField use n)
    (hk : n.kind? = some .ident ∨ n.kind?.any Kind.isChain = true) :
    ∃ path tail e, n.chain? = some ⟨path, tail⟩ ∧ t.resolve path = some e ∧
      ((∃ v, e.kind = .var v ∧ type = v.type) ∨ t.madeType? path e.kind = some type) := by
  cases ht with
  | «variable» _ hchain he hv => exact ⟨_, _, _, hchain, he, .inl ⟨_, hv, rfl⟩⟩
  | made _ hchain he hmade => exact ⟨_, _, _, hchain, he, .inr hmade⟩
  | field hf => exact absurd hf hfield
  | element hkind | target hkind | borrow hkind | cast hkind | array hkind =>
    simp [Node.kind?, hkind, Kind.isChain] at hk

theorem field_inv (ht : t.HasType use n type) (hfield : t.SelectsField use n)
    (hn : n = .mk h (left :: .mk r rcs rfs rb :: rest) fs b) :
    ∃ base rec ty, t.HasType use left base ∧ t.record? (t.pointee base) = some rec ∧
      rec.fields.get? r.name = some ty ∧ type = t.qualifyAt rec.path ty := by
  cases ht with
  | field _ _ hleft hrec hty =>
    cases hn
    exact ⟨_, _, _, hleft, hrec, hty, rfl⟩
  | «variable» hf | made hf => exact absurd hfield hf
  | element hkind | target hkind | borrow hkind | cast hkind | array hkind =>
    have hdot := hfield.1
    simp [Node.kind?, hkind] at hdot

/-- An element or what a reference leads to is no chain. -/
theorem chain?_of_kind (hk : h.kind = .index ∨ h.kind = .deref) :
    (Node.mk h cs fs b).chain? = none := by
  refine Node.chain?_eq_none ?_ ?_ <;> rcases hk with hk | hk <;> simp [hk, Kind.isChain]

theorem element_inv (ht : t.HasType use n type) (hk : h.kind = .index)
    (hn : n = .mk h (base :: rest) fs b) : ∃ found, t.HasType use base found ∧
      ((∃ size, t.underlying found = .array size type) ∨ t.underlying found = .ptr type) := by
  have hnone : n.chain? = none := hn ▸ chain?_of_kind (.inl hk)
  cases ht with
  | element _ hbase helem =>
    cases hn
    exact ⟨_, hbase, helem⟩
  | «variable» _ hchain | made _ hchain => rw [hnone] at hchain; cases hchain
  | field hfield =>
    cases hn
    exact absurd hfield (not_selectsField hk (by simp))
  | target hkind | borrow hkind | cast hkind | array hkind =>
    obtain ⟨rfl, -⟩ := Node.mk.inj hn
    rw [hk] at hkind
    cases hkind

theorem target_inv (ht : t.HasType use n type) (hk : h.kind = .deref)
    (hn : n = .mk h (base :: rest) fs b) : ∃ found, t.HasType .read base found ∧
      ((∃ m, t.underlying found = .ref type m) ∨ t.underlying found = .ptr type) := by
  have hnone : n.chain? = none := hn ▸ chain?_of_kind (.inr hk)
  cases ht with
  | target _ hoperand htarget =>
    cases hn
    exact ⟨_, hoperand, htarget⟩
  | «variable» _ hchain | made _ hchain => rw [hnone] at hchain; cases hchain
  | field hfield =>
    cases hn
    exact absurd hfield (not_selectsField hk (by simp))
  | element hkind | borrow hkind | cast hkind | array hkind =>
    obtain ⟨rfl, -⟩ := Node.mk.inj hn
    rw [hk] at hkind
    cases hkind

/-- What a path leads to has one type. -/
theorem entry_unique {path} {e : SymbolEntry}
    (h : (∃ v, e.kind = .var v ∧ type = v.type) ∨ t.madeType? path e.kind = some type)
    (h' : (∃ v, e.kind = .var v ∧ type' = v.type) ∨ t.madeType? path e.kind = some type') :
    type = type' := by
  rcases h with ⟨v, hv, rfl⟩ | h <;> rcases h' with ⟨v', hv', rfl⟩ | h'
  · cases hv.symm.trans hv'
    rfl
  · rw [hv] at h'
    cases h'
  · rw [hv'] at h
    cases h
  · exact Option.some.inj (h.symm.trans h')

/-- A chain that is no field has one type. -/
theorem name_unique (hfield : ¬ t.SelectsField use n)
    (hk : n.kind? = some .ident ∨ n.kind?.any Kind.isChain = true)
    (h : t.HasType use n type) (h' : t.HasType use n type') : type = type' := by
  obtain ⟨path, tail, e, hchain, he, hentry⟩ := h.name_inv hfield hk
  obtain ⟨path', tail', e', hchain', he', hentry'⟩ := h'.name_inv hfield hk
  cases hchain.symm.trans hchain'
  cases he.symm.trans he'
  exact entry_unique hentry hentry'

end HasType

/-! ## Tables that differ in values only -/

theorem resolve_of_filled (h : t.filled = t'.filled) {path} {e : SymbolEntry}
    (he : t.resolve path = some e) : ∃ e', t'.resolve path = some e' ∧ e'.filled = e.filled := by
  have hfilled := resolve_filled path t'
  rw [← h, resolve_filled, he] at hfilled
  obtain ⟨e', he', heq⟩ := Option.map_eq_some_iff.1 hfilled.symm
  exact ⟨e', he', heq⟩

namespace Lags

variable (h : t.Lags t')

include h

theorem selectsField {use n} : t.SelectsField use n ↔ t'.SelectsField use n := by
  unfold SelectsField
  rw [h.same startsAtValue_filled]

theorem madeType? (path : List Ident) (kind : EntryKind ModuleBody) :
    t.madeType? path kind = t'.madeType? path kind := by
  unfold Symbols.madeType?
  split
  · rw [h.same₂ qualifyAt_filled]
  all_goals first | rfl | rw [h.same canonical_filled]

theorem record?_pointee (type : Ty) : t.record? (t.pointee type) = t'.record? (t'.pointee type) := by
  rw [h.same record?_filled, h.same pointee_filled]

/-- An entry that is neither a variable nor a module is the same in both. -/
theorem resolve_kind {path} {e : SymbolEntry} (he : t.resolve path = some e)
    (hvar : ∀ v, e.kind ≠ .var v) (hmodule : ∀ b, e.kind ≠ .moduleDef b) :
    ∃ e', t'.resolve path = some e' ∧ e'.kind = e.kind := by
  obtain ⟨e', he', hfilled⟩ := resolve_of_filled h.filled_eq he
  exact ⟨e', he', Entry.kind_of_filled hfilled hvar hmodule⟩

theorem namesUnsafe {path} (hp : t.NamesUnsafe path) : t'.NamesUnsafe path := by
  obtain ⟨e, he, hkind⟩ := hp
  obtain ⟨e', he', heq⟩ := h.resolve_kind he
    (fun v hv => by rw [hv] at hkind; cases hkind) fun b hb => by rw [hb] at hkind; cases hkind
  exact ⟨e', he', heq ▸ hkind⟩

end Lags

/-- Which variables have a value makes no difference to types. -/
theorem HasType.lags (ht : t.Lags t') {use n type} (h : t.HasType use n type) :
    t'.HasType use n type := by
  induction h with
  | «variable» hfield hchain he hv =>
    obtain ⟨e', he', hfilled⟩ := resolve_of_filled ht.filled_eq he
    obtain ⟨v', hv', htype, -⟩ := Entry.var_of_filled hfilled hv
    exact htype ▸ .variable (ht.selectsField.not.1 hfield) hchain he' hv'
  | @made n tail path e type hfield hchain he htype =>
    obtain ⟨e', he', hkind⟩ := ht.resolve_kind he
      (fun v hv => by rw [hv] at htype; cases htype) fun b hb => by rw [hb] at htype; cases htype
    refine .made (ht.selectsField.not.1 hfield) hchain he' ?_
    rw [hkind, ← ht.madeType?]
    exact htype
  | field hfield hname _ hrec hty ih =>
    rw [ht.same₂ qualifyAt_filled]
    rw [ht.record?_pointee] at hrec
    exact .field (ht.selectsField.1 hfield) hname ih hrec hty
  | element hkind _ helem ih =>
    rw [ht.same underlying_filled] at helem
    exact .element hkind ih helem
  | target hkind _ htarget ih =>
    rw [ht.same underlying_filled] at htarget
    exact .target hkind ih htarget
  | borrow hkind _ ih => exact .borrow hkind ih
  | cast hkind => exact .cast hkind
  | array hkind _ _ hknown ihuntyped ih => exact .array hkind ihuntyped ih hknown

/-! ## References and pointers -/

@[simp] theorem underlying_ref (t : Symbols) (target : Ty) (mutable : Bool) :
    t.underlying (.ref target mutable) = .ref target mutable := rfl

@[simp] theorem underlying_ptr (t : Symbols) (target : Ty) :
    t.underlying (.ptr target) = .ptr target := rfl

/-- A place behind references and pointers has the type that is found behind them. -/
theorem underlying_throughIn (t : Symbols) (fuel : Nat) : ∀ p : Place,
    t.underlying (t.throughIn fuel p).type = t.pointeeIn fuel p.type := by
  induction fuel with
  | zero => exact fun _ => rfl
  | succ fuel ih =>
    intro p
    unfold throughIn pointeeIn
    cases hu : t.underlying p.type with
    | ref target mutable => exact ih _
    | ptr target => exact ih _
    | _ => exact hu

/-- What leads to a record leads to the same one from behind its references and pointers. -/
theorem record?_through {t : Symbols} {p : Place} {rec}
    (h : t.record? (t.pointee p.type) = some rec) :
    t.record? (t.pointee (t.through p).type) = some rec := by
  have hthrough : t.underlying (t.through p).type = t.pointee p.type := underlying_throughIn _ _ _
  suffices hsame : t.pointee (t.through p).type = t.pointee p.type by rw [hsame]; exact h
  rw [← hthrough] at h ⊢
  generalize (t.through p).type = type at h ⊢
  unfold pointee
  generalize t.reach type = fuel
  -- a reference or a pointer is no record, so that nothing is left to look behind
  cases fuel with
  | zero => rfl
  | succ fuel =>
    unfold pointeeIn
    split
    · rename_i hu; rw [hu] at h; simp [record?] at h
    · rename_i hu; rw [hu] at h; simp [record?] at h
    · rfl

end Symbols

namespace Analysis

/-! ## What chains make -/

section Chains

variable {below : ExprRule} {n : Node} {c : Chain} {e : SymbolEntry}

theorem unsafeAllowed_returns : Returns unsafeAllowed fun s allowed s' =>
    s' = s ∧ (allowed = true → s.table.context.safety = .unsafely) :=
  fun _ => ⟨rfl, fun h => beq_iff_eq.1 h⟩

/-- An accepted call has the result type of the function, as it is written from here, and is
allowed. -/
theorem call_returns (sig : Signature) : Returns (call below n c sig) fun s r s' =>
    ∀ type, r.2 = some type → (sig.flags.has .unsafeFn = true →
      s.table.context.safety = .unsafely) ∧ type = s'.table.qualifyAt c.path sig.result := by
  unfold call
  split
  · exact .report fun _ _ _ => nofun
  · exact .report fun _ _ _ => nofun
  · split
    · exact .report fun _ _ _ => nofun
    · refine unsafeAllowed_returns.bind fun allowed => ?_
      split
      · exact .report fun _ _ _ _ _ => nofun
      · rename_i hallowed
        refine (Returns.run _).bind fun r => ?_
        obtain ⟨tail, _ | args⟩ := r
        · exact .pure fun _ _ _ _ _ _ => nofun
        · refine .symbols fun t => .pure fun s₂ ht s₁ _ s hs type htype => ?_
          cases htype
          exact ⟨fun hflag => hs.2 (by simpa [hflag] using hallowed), by rw [ht]⟩

theorem literal_returns (fields : Fields) (union : Bool) :
    Returns (literal below n c fields union) fun s r s' => ∀ type, r.2 = some type →
      (union = true → s.table.context.safety = .unsafely) ∧
        type = .custom (s'.table.canonical c.path) := by
  unfold literal
  split
  · exact .report fun _ _ _ => nofun
  · exact .report fun _ _ _ => nofun
  · split
    · exact .report fun _ _ _ => nofun
    · refine unsafeAllowed_returns.bind fun allowed => ?_
      split
      · exact .report fun _ _ _ _ _ => nofun
      · rename_i hallowed
        refine (Returns.run _).bind fun r => ?_
        obtain ⟨fs', _ | built⟩ := r
        · exact .pure fun _ _ _ _ _ _ => nofun
        · refine .symbols fun t => .pure fun s₂ ht s₁ _ s hs type htype => ?_
          cases htype
          exact ⟨fun hunion => hs.2 (by simpa [hunion] using hallowed), by rw [ht]⟩

theorem enumNumber_returns (value : Int) : Returns (enumNumber n c value) fun _ r s' =>
    ∀ type, r.2 = some type → type = .custom (s'.table.canonical c.path.dropLast) := by
  unfold enumNumber
  split
  · exact .report fun _ _ _ => nofun
  · refine .symbols fun t => .pure fun s ht type htype => ?_
    cases htype
    rw [ht]

theorem construct_type (owner : Ident) (payload : Payload) (ordinal : Int) :
    Returns (construct below n c owner payload ordinal) fun _ r s' => ∀ type, r.2 = some type →
      type = .custom (s'.table.canonical c.path.dropLast) := by
  refine (Returns.run _).bind fun r => ?_
  obtain ⟨n', _ | built⟩ := r
  · exact .pure fun _ _ _ _ => nofun
  · dsimp only
    split
    · exact .report fun _ _ _ _ _ => nofun
    · refine .symbols fun t => .pure fun s₁ ht s _ type htype => ?_
      cases htype
      rw [ht]

/-- A variable that a path leads to has the type that it is declared with, unless it is assigned
to. -/
theorem moduleVariable_returns {v : Variable} (hv : e.kind = .var v) :
    Returns (moduleVariable below n c e v) fun _ r _ => ∀ type, r.2 = some type →
      type = v.type ∨ ∃ m, c.tail = some m ∧ m.kind? = some .assign := by
  unfold moduleVariable
  split
  · refine (readEntry_returns _ _ e).bind fun r => .pure fun _ _ hread type htype => ?_
    obtain ⟨v', hv', rfl⟩ := hread type htype
    cases hv'.symm.trans hv
    exact .inl rfl
  · rename_i htail
    split
    · rename_i hassign
      exact fun _ _ _ => .inr ⟨_, htail, congrArg some hassign⟩
    · exact .report fun _ _ _ => nofun
  · exact .report fun _ _ _ => nofun

/-- What an entry stands for that a chain leads to: a variable for its value, if it is not assigned
to, and anything else for what is made of it, with its type, where that is allowed. -/
def Means (s : State) (c : Chain) (e : SymbolEntry) (type : Ty) : Prop :=
  (∃ v, e.kind = .var v ∧ (type = v.type ∨ ∃ m, c.tail = some m ∧ m.kind? = some .assign)) ∨
    ((e.kind.isUnsafe = true → s.table.context.safety = .unsafely) ∧
      s.table.madeType? c.path e.kind = some type)

theorem named_returns : Returns (named below n c e) fun s r s' => s.table.Lags s'.table →
    ∀ type, r.2 = some type → Means s c e type := by
  -- the type is taken from the table at the end, which differs from the first in values only
  have hmade : ∀ {s s' : State} {type : Ty}, s.table.Lags s'.table → (e.kind.isUnsafe = true →
      s.table.context.safety = .unsafely) → s'.table.madeType? c.path e.kind = some type →
      Means s c e type := fun hlags hsafe htype => .inr ⟨hsafe, hlags.madeType? _ _ ▸ htype⟩
  unfold named
  cases hk : e.kind with
  | func sig =>
    refine (call_returns sig).mono fun s r s' h hlags type htype => ?_
    obtain ⟨hsafe, rfl⟩ := h type htype
    exact hmade hlags (by rw [hk]; exact hsafe) (by rw [hk]; rfl)
  | structDef fields =>
    refine (literal_returns fields false).mono fun s r s' h hlags type htype => ?_
    obtain ⟨-, rfl⟩ := h type htype
    exact hmade hlags (by rw [hk]; nofun) (by rw [hk]; rfl)
  | unionDef fields =>
    refine (literal_returns fields true).mono fun s r s' h hlags type htype => ?_
    obtain ⟨hsafe, rfl⟩ := h type htype
    exact hmade hlags (fun _ => hsafe rfl) (by rw [hk]; rfl)
  | enumValue owner value =>
    refine (enumNumber_returns value).mono fun s r s' h hlags type htype => ?_
    obtain rfl := h type htype
    exact hmade hlags (by rw [hk]; nofun) (by rw [hk]; rfl)
  | variantArm owner payload ordinal =>
    refine (construct_type owner payload ordinal).mono fun s r s' h hlags type htype => ?_
    obtain rfl := h type htype
    exact hmade hlags (by rw [hk]; nofun) (by rw [hk]; rfl)
  | var v =>
    exact (moduleVariable_returns hk).mono fun s r s' h _ type htype =>
      .inl ⟨v, hk, h type htype⟩
  | _ => exact .report fun _ _ _ _ => nofun

/-- A chain that names an entry was allowed in a state, and a type is that of what it makes. -/
structure Granted (s : State) (path : List Ident) (e : SymbolEntry) (type : Ty) : Prop where
  safe : e.kind.isUnsafe = true → s.table.context.safety = .unsafely
  made : ∀ made, s.table.madeType? path e.kind = some made → type = made

theorem Means.granted {s type} (h : Means s c e type) : Granted s c.path e type := by
  rcases h with ⟨v, hv, -⟩ | ⟨hsafe, htype⟩
  · exact ⟨by rw [hv]; nofun, by rw [hv]; nofun⟩
  · exact ⟨hsafe, fun made hmade => Option.some.inj (htype.symm.trans hmade)⟩

/-- A chain that is no member access is analysed by what its path leads to. -/
theorem access_returns : Returns (access below n) fun s r s' => ¬ s.table.IsMember n →
    ∀ type, r.2 = some type → ∃ c e, n.chain? = some c ∧ s.table.resolve c.path = some e ∧
      named below n c e s = (r, s') := by
  refine .symbols fun t => ?_
  split
  · rename_i hmember
    intro s ht hplain
    subst ht
    exact absurd hmember hplain
  · split
    · exact .report fun _ _ _ _ _ => nofun
    · rename_i c hchain
      split
      · exact .report fun _ _ _ _ _ => nofun
      · rename_i e he
        exact fun s ht _ _ _ => ⟨c, e, hchain, ht ▸ he, rfl⟩

end Chains

/-! ## Types -/

theorem elem_unique {u elem elem' : Ty} (h : (∃ size, u = .array size elem) ∨ u = .ptr elem)
    (h' : (∃ size, u = .array size elem') ∨ u = .ptr elem') : elem = elem' := by
  rcases h with ⟨_, rfl⟩ | rfl <;> rcases h' with ⟨_, h'⟩ | h' <;> cases h' <;> rfl

theorem target_unique {u target target' : Ty} (h : (∃ m, u = .ref target m) ∨ u = .ptr target)
    (h' : (∃ m, u = .ref target' m) ∨ u = .ptr target') : target = target' := by
  rcases h with ⟨_, rfl⟩ | rfl <;> rcases h' with ⟨_, h'⟩ | h' <;> cases h' <;> rfl

/-- What a judgement accepts where nothing is expected has the type that the rules say, and only
marks are made. -/
structure Judgement.Typed (B : Judgement) : Prop where
  type_eq : ∀ {s : State} {n n' : Node} {type : Ty} {s' : State} {found : Ty},
    B s n .unknown n' type s' → s.table.HasType .read n found → type = found
  marks : ∀ {s : State} {n : Node} {expected : Ty} {n' : Node} {type : Ty} {s' : State},
    B s n expected n' type s' → s.Marks s'

section Typed

variable {B : Judgement} {s s' : State} {h : Head} {cs cs' : List Node} {fs : List (Component Node)}
  {b n n' : Node} {expected type found : Ty} {p : Place}

/-! What is accepted of a node, by its kind. -/

theorem Operation.isOperation (ho : Operation B h expected s cs cs' type s') :
    h.kind.isOperation = true := by
  cases ho with
  | _ hk => rw [hk]; rfl

theorem Accepts.operation_inv (ha : Accepts B expected s (.mk h cs fs b) n' type s')
    (hk : h.kind.isOperation = true) : ∃ cs', Operation B h expected s cs cs' type s' := by
  cases ha with
  | operation hcs => exact ⟨_, hcs⟩
  | int hkind | float hkind | str hkind | bool hkind | name hkind | assignment hkind =>
    rw [hkind] at hk
    cases hk
  | made hkind => rcases hkind with hkind | hkind <;> rw [hkind] at hk <;> cases hk
  | access hkind =>
    rcases Kind.isChain_iff.1 hkind with hkind | hkind | hkind | hkind
    all_goals
      rw [hkind] at hk
      cases hk

theorem Accepts.name_inv (ha : Accepts B expected s (.mk h cs fs b) n' type s')
    (hk : h.kind = .ident) : CleanRun (readName h) s (some type) s' := by
  cases ha with
  | name _ hread => exact hread
  | int hkind | float hkind | str hkind | bool hkind | assignment hkind =>
    rw [hkind] at hk
    cases hk
  | made hkind => rcases hkind with hkind | hkind <;> rw [hkind] at hk <;> cases hk
  | operation hcs =>
    have hop := hcs.isOperation
    rw [hk] at hop
    cases hop
  | access hkind => rw [Node.kind?, Option.any_some, hk] at hkind; cases hkind

theorem Accepts.access_inv (ha : Accepts B expected s n n' type s')
    (hk : n.kind?.any Kind.isChain = true) : Access B s n n' type s' := by
  cases ha with
  | access _ haccess => exact haccess
  | int hkind | float hkind | str hkind | bool hkind | name hkind | assignment hkind =>
    rw [Node.kind?, Option.any_some, hkind] at hk
    cases hk
  | made hkind =>
    rw [Node.kind?, Option.any_some] at hk
    rcases hkind with hkind | hkind <;> rw [hkind] at hk <;> cases hk
  | operation hcs =>
    have hop := hcs.isOperation
    rcases Kind.isChain_iff.1 hk with hk | hk | hk | hk <;> rw [hk] at hop <;> cases hop

/-- A chain that is accepted is a name that is read, or an access. -/
theorem Accepts.chain_inv (ha : Accepts B expected s n n' type s') {c}
    (hchain : n.chain? = some c) :
    (∃ name, c = ⟨[name], none⟩ ∧ ∃ e v, s.table.lookup name = some e ∧ e.kind = .var v ∧
      type = v.type) ∨ (n.kind?.any Kind.isChain = true ∧ Access B s n n' type s') := by
  cases Node.chain?_eq_some_iff.1 hchain with
  | name hk =>
    obtain ⟨e, v, he, hv, htype⟩ := (readName_returns _).of_run (ha.name_inv hk).run _ rfl
    exact .inl ⟨_, rfl, e, v, he, hv, htype⟩
  | built hk =>
    have hk : (_ : Kind).isChain = true := Kind.isChain_iff.2 (hk.imp_right .inl)
    exact .inr ⟨hk, ha.access_inv hk⟩
  | access hk =>
    have hk : (_ : Kind).isChain = true := Kind.isChain_iff.2 (.inr (.inr hk))
    exact .inr ⟨hk, ha.access_inv hk⟩

/-- What is known of the chain that an expression is, if it is one. -/
def ChainGranted (s : State) (n : Node) (type : Ty) : Prop :=
  n.kind?.any Kind.isChain = true → ¬ s.table.IsMember n → ∀ {c e}, n.chain? = some c →
    s.table.resolve c.path = some e → Granted s c.path e type

variable (hB : B.Typed)

/-- A variable has the type that it was declared with. -/
theorem Accepts.typed_variable (ha : Accepts B expected s n n' type s') {path} {e : SymbolEntry}
    {v : Variable} (hmember : ¬ s.table.IsMember n) (hchain : n.chain? = some ⟨path, none⟩)
    (he : s.table.resolve path = some e) (hv : e.kind = .var v) : type = v.type := by
  rcases ha.chain_inv hchain with ⟨name, hc, e', v', he', hv', rfl⟩ | ⟨-, haccess⟩
  · obtain rfl : path = [name] := congrArg Chain.path hc
    rw [Symbols.resolve_singleton, he'] at he
    cases he
    cases hv'.symm.trans hv
    rfl
  · cases haccess with
    | member hm | writeMember hm => exact absurd hm hmember
    | «variable» _ hchain' he' hv' hread =>
      cases hchain'.symm.trans hchain
      cases he'.symm.trans he
      obtain ⟨v', hv', rfl⟩ := (readEntry_returns _ _ _).of_run hread.run _ rfl
      cases hv'.symm.trans hv
      rfl
    | writeVariable _ hchain' => cases hchain'.symm.trans hchain
    | replaced _ hchain' he' hlowers =>
      cases hchain'.symm.trans hchain
      cases he'.symm.trans he
      rw [hv] at hlowers
      cases hlowers

include hB

theorem Access.typed_field {r : Head} {left rcs rest rfs rb found ty} {rec : Record}
    (ha : Access B s (.mk h (left :: .mk r rcs rfs rb :: rest) fs b) n' type s')
    (hmember : s.table.IsMember (.mk h (left :: .mk r rcs rfs rb :: rest) fs b))
    (hname : r.kind = .ident) (hleft : s.table.HasType .read left found)
    (hrec : s.table.record? (s.table.pointee found) = some rec)
    (hty : rec.fields.get? r.name = some ty) : type = s.table.qualifyAt rec.path ty := by
  cases ha with
  | member _ _ hl hfield =>
    obtain rfl := hB.type_eq hl hleft
    have ht := (hB.marks hl).table
    obtain ⟨-, rec', ty', hrec', hty', -, htype⟩ :=
      (fieldType_returns _ _ _).of_run hfield.run _ rfl
    rw [← ht.record?_pointee, hrec] at hrec'
    cases hrec'
    cases hty'.symm.trans hty
    rw [ht.same₂ Symbols.qualifyAt_filled]
    exact htype
  | writeMember _ hassign => rw [hassign] at hname; cases hname
  | «variable» hm | writeVariable hm | replaced hm => exact absurd hmember hm

omit hB in
/-- A known type of the elements is kept. -/
theorem ArrayElems.elem_eq {elem elem' : Ty} {ns ns'} (ha : ArrayElems B s elem ns ns' elem' s')
    (hknown : elem.isUnknown = false) : elem' = elem := by
  induction ha with
  | nil => rfl
  | cons _ _ _ ih =>
    rw [if_neg (by simp [hknown])] at ih
    exact ih hknown

/-- The first element that has a type gives it to all. -/
theorem ArrayElems.typed {elem rest} {type found : Ty} (hknown : type.isUnknown = false) :
    ∀ {untyped ns' : List Node} {s s' : State},
    ArrayElems B s .unknown (untyped ++ elem :: rest) ns' found s' →
    (∀ c ∈ untyped, s.table.HasType .read c .unknown) → s.table.HasType .read elem type →
    found = type
  | [], _, _, _, ha, _, helem => by
    cases ha with
    | cons hn _ hrest =>
      obtain rfl := hB.type_eq hn helem
      exact hrest.elem_eq hknown
  | c :: untyped, _, _, _, ha, huntyped, helem => by
    obtain ⟨hc, huntyped⟩ := List.forall_mem_cons.1 huntyped
    cases ha with
    | cons hn _ hrest =>
      obtain rfl := hB.type_eq hn hc
      have ht := (hB.marks hn).table
      exact hrest.typed hknown (fun c hc => (huntyped c hc).lags ht) (helem.lags ht)

/-- An expression that is accepted has the type that the rules say, if those below do. -/
theorem Accepts.typed (ha : Accepts B .unknown s n n' type s') (hgranted : ChainGranted s n type)
    (htype : s.table.HasType .read n found) : type = found := by
  cases htype with
  | «variable» hfield hchain he hv =>
    exact ha.typed_variable (Symbols.selectsField_read.not.1 hfield) hchain he hv
  | made hfield hchain he htype =>
    rcases ha.chain_inv hchain with ⟨name, hc, e', v, he', hv, -⟩ | ⟨hk, -⟩
    · obtain ⟨rfl, -⟩ := Chain.mk.inj hc
      rw [Symbols.resolve_singleton, he'] at he
      cases he
      rw [hv] at htype
      cases htype
    · exact (hgranted hk (Symbols.selectsField_read.not.1 hfield) hchain he).made _ htype
  | field hfield hname hleft hrec hty =>
    have hmember := Symbols.selectsField_read.1 hfield
    have hk : (_ : Kind).isChain = true :=
      Kind.isChain_iff.2 (.inr (.inr (.inl (Option.some.inj hmember.1))))
    exact (ha.access_inv hk).typed_field hB hmember hname hleft hrec hty
  | element hkind hbase helem =>
    obtain ⟨cs', ho⟩ := ha.operation_inv (hkind ▸ rfl)
    cases ho with
    | index _ hb helem' =>
      obtain rfl := hB.type_eq hb hbase
      obtain ⟨-, helem'⟩ := (elementType_returns _ _).of_run helem'.run _ rfl
      rw [← (hB.marks hb).table.same Symbols.underlying_filled] at helem'
      exact elem_unique helem' helem
    | _ hk =>
      rw [hkind] at hk
      cases hk
  | target hkind hoperand htarget =>
    obtain ⟨cs', ho⟩ := ha.operation_inv (hkind ▸ rfl)
    cases ho with
    | deref _ hop htarget' =>
      obtain rfl := hB.type_eq hop hoperand
      rw [← (hB.marks hop).table.same Symbols.underlying_filled] at htarget'
      exact target_unique htarget' htarget
    | _ hk =>
      rw [hkind] at hk
      cases hk
  | borrow hkind hoperand =>
    obtain ⟨cs', ho⟩ := ha.operation_inv (hkind ▸ rfl)
    cases ho with
    | borrow _ hop => rw [hB.type_eq hop hoperand]
    | _ hk =>
      rw [hkind] at hk
      cases hk
  | cast hkind =>
    obtain ⟨cs', ho⟩ := ha.operation_inv (hkind ▸ rfl)
    cases ho with
    | cast => rfl
    | _ hk =>
      rw [hkind] at hk
      cases hk
  | array hkind huntyped helem hknown =>
    obtain ⟨cs', ho⟩ := ha.operation_inv (hkind ▸ rfl)
    generalize hcs : _ ++ _ :: _ = cs at ho
    cases ho with
    | array _ _ hcs' =>
      subst hcs
      rw [hcs'.length_eq, hcs'.typed hB hknown huntyped helem]
    | unit => simp at hcs
    | _ hk =>
      rw [hkind] at hk
      cases hk

theorem AsIndex.marks (hi : AsIndex B s n n' s') : s.Marks s' := by
  obtain ⟨_, hi, -⟩ := hi
  exact hB.marks hi

theorem PlaceOf.marks (hp : PlaceOf B s n n' p s') : s.Marks s' := by
  induction hp with
  | name | path => exact .refl _
  | member _ _ _ hfield ih =>
    obtain ⟨rfl, -⟩ := (fieldType_returns _ _ _).of_run hfield.run _ rfl
    exact ih
  | element _ _ hq hidx ih =>
    obtain ⟨rfl, -⟩ := (elementsPlace_returns _ _).of_run hq.run _ rfl
    exact ih.trans (hidx.marks hB)
  | pointee _ hoperand hp =>
    obtain ⟨rfl, -⟩ := (pointeePlace_returns _ _ _).of_run hp.run _ rfl
    exact hB.marks hoperand

/-- The target of an assignment has the type that the rules say. -/
theorem PlaceOf.typed (hp : PlaceOf B s n n' p s') (htype : s.table.HasType .write n found) :
    p.type = found := by
  induction hp generalizing found with
  | name hkind he hv =>
    exact (htype.name_unique (Symbols.not_selectsField hkind (by simp)) (.inl (congrArg some hkind))
      (.of_name hkind he hv)).symm
  | path hkind hchain he hv =>
    have hk : (_ : Kind).isChain = true := Kind.isChain_iff.2 (.inr (.inr (.inr hkind)))
    exact (htype.name_unique (Symbols.not_selectsField hkind (by simp)) (.inr hk)
      (.variable (Symbols.not_selectsField hkind (by simp)) hchain he hv)).symm
  | member hkind hname hleft hfield ih =>
    obtain ⟨base, rec, ty, hbase, hrec, hty, rfl⟩ :=
      htype.field_inv (Symbols.selectsField_write.2 (congrArg some hkind)) rfl
    obtain rfl := ih hbase
    have ht := (hleft.marks hB).table
    obtain ⟨-, rec', ty', hrec', hty', -, htype⟩ :=
      (fieldType_returns _ _ _).of_run hfield.run _ rfl
    rw [ht.record?_pointee] at hrec
    rw [Symbols.record?_through hrec] at hrec'
    cases hrec'
    cases hty'.symm.trans hty
    rw [ht.same₂ Symbols.qualifyAt_filled]
    exact htype
  | element hkind hbase hq _ ih =>
    obtain ⟨_, hb, helem⟩ := htype.element_inv hkind rfl
    obtain rfl := ih hb
    obtain ⟨-, helem'⟩ := (elementsPlace_returns _ _).of_run hq.run _ rfl
    rw [← (hbase.marks hB).table.same Symbols.underlying_filled] at helem'
    rcases helem' with ⟨size, elem, hu, rfl⟩ | ⟨target, hu, rfl⟩
    · exact elem_unique (.inl ⟨size, hu⟩) helem
    · exact elem_unique (.inr hu) helem
  | pointee hkind hoperand hp =>
    obtain ⟨_, hop, htarget⟩ := htype.target_inv hkind rfl
    obtain rfl := hB.type_eq hoperand hop
    obtain ⟨-, htarget'⟩ := (pointeePlace_returns _ _ _).of_run hp.run _ rfl
    rw [← (hB.marks hoperand).table.same Symbols.underlying_filled] at htarget'
    exact target_unique htarget' htarget

end Typed

variable {cfg : Config} {k : Nat} {s s' : State} {n n' : Node} {expected type : Ty}

/-- A chain is analysed as an access. -/
theorem exprStep_chain {below} (hk : n.kind?.any Kind.isChain = true) :
    exprStep below expected n = access below n := by
  cases n with
  | absent => cases hk
  | mk h cs fs b =>
    unfold exprStep
    rcases Kind.isChain_iff.1 hk with hk | hk | hk | hk <;> simp only [hk]

/-- The table before an expression lags behind the one after it. -/
theorem exprAt_lags {r} (hrun : exprAt cfg k n expected s = (r, s')) : s.table.Lags s'.table := by
  have hmarks := exprAt_marks cfg k n expected s
  rw [hrun] at hmarks
  exact hmarks.table

/-- What is accepted is accepted by the rule for its kind, with a level less below. -/
theorem exprAt_step (hrun : exprAt cfg k n expected s = ((n', some type), s')) :
    ∃ k₀, exprStep (exprAt cfg k₀) expected n s = ((n', some type), s') := by
  cases k with
  | zero => cases hrun
  | succ k => exact ⟨k, hrun⟩

/-- An accepted chain that is no member access means what its path leads to. -/
theorem exprAt_means (hk : n.kind?.any Kind.isChain = true) (hmember : ¬ s.table.IsMember n)
    (hrun : exprAt cfg k n expected s = ((n', some type), s')) :
    ∃ c e, n.chain? = some c ∧ s.table.resolve c.path = some e ∧ Means s c e type := by
  have hlags := exprAt_lags hrun
  obtain ⟨k, hrun⟩ := exprAt_step hrun
  rw [exprStep_chain hk] at hrun
  obtain ⟨c, e, hchain, he, hnamed⟩ := access_returns.of_run hrun hmember type rfl
  exact ⟨c, e, hchain, he, named_returns.of_run hnamed hlags type rfl⟩

theorem exprAt_granted (h : (exprAt cfg k).Gives s n expected n' type s') :
    ChainGranted s n type := by
  intro hk hmember c e hchain he
  obtain ⟨c', e', hchain', he', hmeans⟩ := exprAt_means hk hmember h.run
  cases hchain'.symm.trans hchain
  cases he'.symm.trans he
  exact hmeans.granted

/-- What is analysed without errors is accepted, by expressions that are analysed without errors. -/
theorem exprAt_accepts (cfg : Config) (k : Nat)
    (h : (exprAt cfg (k + 1)).Gives s n expected n' type s') :
    Accepts (exprAt cfg k).Gives expected s n n' type s' := by
  obtain ⟨ha⟩ := (exprStep_passes (exprAt_honest cfg k) expected n).of_run h
  exact ha

theorem not_exprAt_zero (cfg : Config) :
    ¬ (exprAt cfg 0).Gives s n expected n' type s' := by
  intro h
  obtain ⟨ha⟩ := ((exprAt_elaborates cfg 0).gives n expected).of_run h
  exact ha

/-- An expression that is analysed without errors has the type that the rules say. -/
theorem exprAt_typed (cfg : Config) : ∀ k, (exprAt cfg k).Gives.Typed
  | 0 => ⟨fun h => (not_exprAt_zero cfg h).elim, fun h => (not_exprAt_zero cfg h).elim⟩
  | k + 1 => {
    type_eq := fun h htype =>
      (exprAt_accepts cfg k h).typed (exprAt_typed cfg k) (exprAt_granted h) htype
    marks := fun {s n expected n' type s'} h => by
      have hmarks := exprAt_marks cfg (k + 1) n expected s
      rwa [h.run] at hmarks }

end Analysis

end TreeSema
