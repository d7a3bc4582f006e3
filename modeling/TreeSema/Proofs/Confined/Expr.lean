import TreeSema.Proofs.Confined.Type

/-!
# Unsafe operations in expressions are allowed

Where an unsafe operation is met, analysis looks at the safety of the innermost scope, separately for
calls, literals, fields that are read and fields that are written. An expression that is analysed
without errors is confined to what that safety allows.

* `fieldType_allowed`: a field of a union is found only where unsafe operations are allowed.
* `Accepts.confined`, `PlaceOf.confined`: an expression is confined, if those below are.
* `exprAt_confined`: the same at every level.
-/
namespace TreeSema

namespace Node

variable {h : Head} {cs : List Node} {fs : List (Component Node)} {b : Node}

theorem Source.parts (hn : (mk h cs fs b).Source) (hk : h.kind.hasParts = false) :
    fs = [] ∧ b = .absent := (every_mk.1 hn).1.shaped.operands_only hk

theorem Source.fields (hn : (mk h cs fs b).Source) : ∀ f ∈ fs, f.value.Source :=
  (every_mk.1 hn).2.2.1

/-- A literal has no operands. -/
theorem Source.lit_operands (hn : (mk h cs fs b).Source) (hk : h.kind = .lit) : cs = [] := by
  simpa [Head.Takes, hk] using hn.takes

/-- The arguments of a call stand in order or by name. -/
theorem Source.call_operands (hn : (mk h cs fs b).Source) (hk : h.kind = .call) :
    if h.named then cs = [] else fs = [] := by
  split
  · rename_i hnamed
    simpa [Head.Takes, hk, hnamed] using hn.takes
  · rename_i hnamed
    cases (every_mk.1 hn).1.shaped with
    | mk _ hfields _ =>
      refine List.eq_nil_iff_forall_not_mem.2 fun f hf => hnamed ?_
      simpa [Head.Admits, hk] using hfields f hf

end Node

namespace Symbols

open Node

variable {t : Symbols} {inside : Bool} {use : Use}

theorem confines_name {h : Head} {cs fs b} (hk : h.kind = .ident) :
    t.Confines inside use (.mk h cs fs b) := by
  refine .names (fun hfield => ?_) (chain?_eq_some_iff.2 (.name hk))
  rw [SelectsField, kind?, hk] at hfield
  cases hfield.1

/-- At the end of a chain only a name is assigned to. -/
theorem confines_assigned {n target b : Node} {path} {h : Head} {cs fs}
    (hchain : n.chain? = some ⟨path, some (.mk h (target :: cs) fs b)⟩)
    (hassign : h.kind = .assign) : t.Confines inside use target := by
  have hnot : ¬ (h.kind = .call ∨ h.kind = .lit) := by simp [hassign]
  cases chain?_eq_some_iff.1 hchain with
  | built hbuilt => exact absurd hbuilt hnot
  | access _ _ hright =>
    cases hright with
    | built hbuilt => exact absurd hbuilt hnot
    | assigned _ hname => exact confines_name hname

end Symbols

namespace Analysis

open Node

/-- The operands at the end of a chain are all analysed. -/
theorem Replacement.operands {R : Node → Node → Prop}
    {Order : List (Component Node) → List Node → Prop} {tail n : Node} {loc}
    (h : Replacement (List.Forall₂ R) (List.Forall₂ (Component.Lift R)) Order (some tail) loc n)
    (hsource : tail.Source) :
    (∀ c ∈ tail.children, ∃ c', R c c') ∧ ∀ f ∈ tail.fields, ∃ c', R f.value c' := by
  have hall : ∀ {cs cs' : List Node}, List.Forall₂ R cs cs' → ∀ c ∈ cs, ∃ c', R c c' := by
    intro cs cs' hcs c hc
    obtain ⟨c', -, hc'⟩ := exists_of_forall₂_left hcs hc
    exact ⟨c', hc'⟩
  have hfields : ∀ {fs fs' : List (Component Node)}, List.Forall₂ (Component.Lift R) fs fs' →
      ∀ f ∈ fs, ∃ c', R f.value c' := by
    intro fs fs' hfs f hf
    obtain ⟨f', -, ⟨hf'⟩⟩ := exists_of_forall₂_left hfs hf
    exact ⟨_, hf'⟩
  cases h with
  | literal hk hfs | structArm hk hfs =>
    obtain rfl := hsource.lit_operands hk
    exact ⟨List.forall_mem_nil _, hfields hfs⟩
  | emptyArm htail =>
    simp only [carriesNothing, Bool.and_eq_true, List.isEmpty_iff] at htail
    rw [htail.1.2, htail.2]
    exact ⟨List.forall_mem_nil _, List.forall_mem_nil _⟩
  | tupleArm hk hnamed hcs | call hk hnamed hcs =>
    obtain rfl := by simpa [hnamed] using hsource.call_operands hk
    exact ⟨hall hcs, List.forall_mem_nil _⟩
  | callByName hk hnamed hfs =>
    obtain rfl := by simpa [hnamed] using hsource.call_operands hk
    exact ⟨List.forall_mem_nil _, hfields hfs⟩

/-- What a judgement accepts from states with the table `t`, up to values, is confined. -/
def Judgement.Confined (t : Symbols) (inside : Bool) (B : Judgement) : Prop :=
  ∀ {s : State} {n : Node} {expected : Ty} {n' : Node} {type : Ty} {s' : State},
    B s n expected n' type s' → t.Lags s.table → n.Source → t.Confines inside .read n

section Expressions

variable {B : Judgement} {t : Symbols} {inside : Bool} {s s' : State} {n n' : Node}
  (hB : B.Typed) (hc : B.Confined t inside)
  (hinside : t.context.safety = .unsafely → inside = true) (ht : t.Lags s.table)

variable {type field expected : Ty} {name : Ident} {loc : Location} {left left' b : Node} {h : Head}
  {ns ns' cs cs' : List Node} {fs : List (Component Node)}

/-! ## Fields of unions -/

include ht hinside in
/-- A field of a union is found only where unsafe operations are allowed. -/
theorem fieldType_allowed {rec : Record}
    (hfield : CleanRun (fieldType type name loc) s (some field) s')
    (hrec : t.record? (t.pointee type) = some rec) (hunion : rec.union = true) : inside = true := by
  obtain ⟨-, rec', _, hrec', -, hsafe, -⟩ :=
    (fieldType_returns _ _ _).of_run hfield.run _ rfl
  rw [← ht.record?_pointee, hrec] at hrec'
  cases hrec'
  exact hinside ((congrArg Context.safety (Table.Rel.context ht)).trans (hsafe hunion))

include hB ht hinside

theorem readField_allowed {s₁} (hleft : B s left .unknown left' type s₁)
    (hfield : CleanRun (fieldType type name loc) s₁ (some field) s')
    (hunion : t.UnionField .read left name) : inside = true := by
  obtain ⟨found, rec, htype, hrec, hunion, -⟩ := hunion
  obtain rfl := hB.type_eq hleft (htype.lags ht)
  exact fieldType_allowed hinside (ht.trans (hB.marks hleft).table) hfield hrec hunion

theorem writtenField_allowed {p} {s₁ : State} (hleft : PlaceOf B s left left' p s₁)
    (hfield : CleanRun (fieldType (s₁.table.through p).type name loc) s₁ (some field) s')
    (hunion : t.UnionField .write left name) : inside = true := by
  obtain ⟨found, rec, htype, hrec, hunion, -⟩ := hunion
  obtain rfl := hleft.typed hB (htype.lags ht)
  have ht₁ := ht.trans (hleft.marks hB).table
  refine fieldType_allowed hinside ht₁ hfield ?_ hunion
  rw [← ht₁.same Symbols.through_filled]
  exact Symbols.record?_through hrec

/-! ## Operands -/

omit hinside hB
include hc

theorem OfType.confined (h : OfType B type s n n' s') (hn : n.Source) :
    t.Confines inside .read n := by
  obtain ⟨_, h, -⟩ := h
  exact hc h ht hn

theorem AsIndex.confined (h : AsIndex B s n n' s') (hn : n.Source) :
    t.Confines inside .read n := by
  obtain ⟨_, h, -⟩ := h
  exact hc h ht hn

theorem Stored.confined (hv : Stored B h type s n n' s') (hn : n.Source) :
    t.Confines inside .read n := hv.2.confined hc ht hn

include hB

theorem Operation.confined (hop : Operation B h expected s cs cs' type s')
    (hn : (Node.mk h cs fs b).Source) : t.Confines inside .read (.mk h cs fs b) := by
  have hcarries : B.Carries (fun s => t.Lags s.table) fun n _ => t.Confines inside .read n :=
    ⟨fun h ht => ht.trans (hB.marks h).table, fun h ht hn => hc h ht hn⟩
  obtain ⟨rfl, rfl⟩ := hn.parts hop.hasParts
  refine .operation hop.isOperation fun c hmem => ?_
  obtain ⟨c', -, hconfined⟩ := exists_of_forall₂_left (hop.carries hcarries ht hn) hmem
  exact hconfined

/-! ## Targets of assignments -/

include hinside

theorem PlaceOf.confined {p} (hp : PlaceOf B s n n' p s') (hn : n.Source) :
    t.Confines inside .write n := by
  induction hp with
  | name hk => exact Symbols.confines_name hk
  | path hk hchain => exact .names (Symbols.not_selectsField hk (by simp)) hchain
  | member hk hname hleft hfield ih =>
    obtain ⟨rfl, rfl, rfl⟩ := hn.two (hk ▸ rfl)
    obtain ⟨rfl, rfl, rfl⟩ := hn.second.leaf (hname ▸ rfl)
    refine .field (Symbols.selectsField_write.2 (by rw [kind?, hk])) hname ?_ (ih hn.first)
    exact writtenField_allowed hB hinside ht hleft hfield
  | element hk hbase hq hidx ih =>
    obtain ⟨rfl, rfl, rfl⟩ := hn.two (hk ▸ rfl)
    obtain ⟨rfl, -⟩ := (elementsPlace_returns _ _).of_run hq.run _ rfl
    exact .element hk (ih hn.first)
      (hidx.confined hc (ht.trans (hbase.marks hB).table) hn.second)
  | pointee hk hoperand =>
    obtain ⟨rfl, rfl, rfl⟩ := hn.one (hk ▸ rfl)
    exact .target hk (hc hoperand ht hn.first)

theorem Assignment.confined (ha : Assignment B h s cs cs' s') (hk : h.kind = .assign)
    (hn : (Node.mk h cs fs b).Source) : t.Confines inside .read (.mk h cs fs b) := by
  cases ha with
  | name hname hvalue =>
    obtain ⟨rfl, rfl, rfl⟩ := hn.two (hk ▸ rfl)
    obtain ⟨_, _, _, s₁, _, -, -, -, hwarned, hvalue, -⟩ := hvalue
    exact .assignment hk (Symbols.confines_name hname)
      (hvalue.confined hc (ht.trans hwarned.marks.table) hn.second)
  | place _ htarget _ hvalue =>
    obtain ⟨rfl, rfl, rfl⟩ := hn.two (hk ▸ rfl)
    exact .assignment hk (htarget.confined hB hc hinside ht hn.first)
      (hvalue.confined hc (ht.trans (htarget.marks hB).table) hn.second)

/-! ## Chains -/

theorem Access.confined (ha : Access B s n n' type s')
    (hgranted : ChainGranted s n type) (hk : n.kind?.any Kind.isChain = true) (hn : n.Source) :
    t.Confines inside .read n := by
  have hplain : ∀ {n : Node}, ¬ s.table.IsMember n → ¬ t.SelectsField .read n := fun h hf =>
    h (Symbols.selectsField_read.1 (ht.selectsField.1 hf))
  cases ha with
  | member hmember hname hleft hfield =>
    have hdot := Option.some.inj hmember.1
    obtain ⟨rfl, rfl, rfl⟩ := hn.two (hdot ▸ rfl)
    obtain ⟨rfl, rfl, rfl⟩ := hn.second.leaf (hname ▸ rfl)
    exact .field (ht.selectsField.2 (Symbols.selectsField_read.2 hmember)) hname
      (readField_allowed hB hinside ht hleft hfield) (hc hleft ht hn.first)
  | writeMember hmember hassign hname hleft hfield _ hvalue =>
    have hdot := Option.some.inj hmember.1
    obtain ⟨rfl, rfl, rfl⟩ := hn.two (hdot ▸ rfl)
    obtain ⟨rfl, rfl, rfl⟩ := hn.second.two (hassign ▸ rfl)
    obtain ⟨rfl, rfl, rfl⟩ := hn.second.first.leaf (hname ▸ rfl)
    have ht₁ := ht.trans (hleft.marks hB).table
    obtain ⟨rfl, -⟩ := (fieldType_returns _ _ _).of_run hfield.run _ rfl
    exact .assignedField (ht.selectsField.2 (Symbols.selectsField_read.2 hmember)) hassign hname
      (writtenField_allowed hB hinside ht hleft hfield) (hleft.confined hB hc hinside ht hn.first)
      (hvalue.confined hc ht₁ hn.second.second)
  | «variable» hmember hchain => exact .names (hplain hmember) hchain
  | @writeVariable _ _ _ _ target _ _ _ _ _ _ _ hmember hchain hassign he hv _ hvalue =>
    have htail := hn.tail hchain
    obtain ⟨rfl, rfl, -⟩ := htail.two (hassign ▸ rfl)
    have htarget : t.Confines inside .read target :=
      Symbols.confines_assigned hchain hassign
    refine .chain (hplain hmember) hchain (fun hrisk => ?_) ?_ (List.forall_mem_nil _)
    · obtain ⟨e', he', hrisk⟩ := ht.namesUnsafe hrisk
      cases he.symm.trans he'
      rw [hv] at hrisk
      cases hrisk
    · simp [children, htarget, hvalue.confined hc ht htail.second]
  | @replaced _ _ _ _ tail _ _ _ hmember hchain he _ hnew =>
    cases tail with
    | none => exact .names (hplain hmember) hchain
    | some tail =>
      obtain ⟨hcs, hfs⟩ := hnew.new.operands (hn.tail hchain)
      have hoperand : ∀ {c : Node}, c.Source → (∃ c', Operand B s c c') →
          t.Confines inside .read c := by
        rintro c hs ⟨_, s₁, _, _, _, hmarks, hc'⟩
        exact hc hc' (ht.trans hmarks.table) hs
      refine .chain (hplain hmember) hchain (fun hrisk => ?_)
        (fun c hm => hoperand ?_ (hcs c hm)) fun f hm => hoperand ?_ (hfs f hm)
      · obtain ⟨e', he', hrisk⟩ := ht.namesUnsafe hrisk
        cases he.symm.trans he'
        have hsafe := (hgranted hk hmember hchain he).safe hrisk
        exact hinside ((congrArg Context.safety (Table.Rel.context ht)).trans hsafe)
      all_goals
        have htail := hn.tail hchain
        cases tail with
        | absent => cases hm
        | mk h cs fs b => first | exact htail.children c hm | exact htail.fields f hm

/-- An expression that is accepted is confined, if those below are. -/
theorem Accepts.confined (ha : Accepts B expected s n n' type s')
    (hgranted : ChainGranted s n type) (hn : n.Source) : t.Confines inside .read n := by
  cases ha with
  | int hk | float hk | str hk | bool hk =>
    obtain ⟨rfl, rfl, rfl⟩ := hn.leaf (hk ▸ rfl)
    exact .constant (by simp [hk])
  | name hk => exact Symbols.confines_name hk
  | made hk => exact absurd hk hn.not_made
  | operation hcs => exact hcs.confined hB hc ht hn
  | assignment hk hcs => exact hcs.confined hB hc hinside ht hk hn
  | access hk haccess => exact haccess.confined hB hc hinside ht hgranted hk hn

end Expressions

/-- The unsafe operations in an expression that is analysed without errors are allowed, if those are
that the innermost scope allows. -/
theorem exprAt_confined (cfg : Config) {t : Symbols} {inside : Bool}
    (hinside : t.context.safety = .unsafely → inside = true) :
    ∀ k, (exprAt cfg k).Gives.Confined t inside
  | 0 => fun h => (not_exprAt_zero cfg h).elim
  | k + 1 => fun h ht hn => (exprAt_accepts cfg k h).confined (exprAt_typed cfg k)
      (exprAt_confined cfg hinside k) hinside ht (exprAt_granted h) hn

end Analysis

end TreeSema
