import TreeSema.Proofs.Accept.Program
import TreeSema.Proofs.Rewrite.Tree

/-!
# Lowering is complete

In a program without errors every call and every literal has been replaced, wherever it stands, and
every chain that is left is an access to a member or a variable.

* `Source`: a tree as it is read, before any analysis.
* `Lowered`: no call or literal is left in a tree.
* `Accepts.lowered`, `Performs.lowered`: what is accepted is lowered, if that is so of the nodes
  below.
* `analyzeBy_lowered`: analysis without errors lowers every call, literal and chain.
-/
namespace TreeSema

namespace Node

/-- A node has the shape of its kind and was not made by analysis. -/
structure SourceNode (n : Node) : Prop where
  shaped : n.Shaped
  literal : n.kind? ≠ some .literal
  typedCall : n.kind? ≠ some .typedCall

/-- A tree that has been read and not analysed. -/
abbrev Source (n : Node) : Prop := n.Every SourceNode

/-- No call or literal is left in a tree. -/
def Lowered (n : Node) : Prop := n.Every fun m => m.kind? ≠ some .call ∧ m.kind? ≠ some .lit

section Lowered

variable {h : Head} {cs cs' : List Node} {fs fs' : List (Component Node)} {b b' : Node}

theorem lowered_mk (hcall : h.kind ≠ .call) (hlit : h.kind ≠ .lit) (hcs : ∀ c ∈ cs, c.Lowered)
    (hfs : ∀ f ∈ fs, f.value.Lowered) (hb : b.Lowered) : (mk h cs fs b).Lowered :=
  every_mk.2 ⟨⟨fun hk => hcall (Option.some.inj hk), fun hk => hlit (Option.some.inj hk)⟩, hcs, hfs,
    hb⟩

/-- A node that has nothing but operands is lowered if they are. -/
theorem Source.lowered (hn : (mk h cs fs b).Source) (hk : h.kind.hasParts = false)
    (hcs : ∀ c ∈ cs', c.Lowered) : (mk h cs' fs b).Lowered := by
  obtain ⟨rfl, rfl⟩ := (every_mk.1 hn).1.shaped.operands_only hk
  refine lowered_mk ?_ ?_ hcs nofun every_absent
  all_goals
    intro he
    rw [he] at hk
    cases hk

section Fixed

variable {n m : Node}

/-! A node of most kinds has a fixed number of operands and nothing else. -/

theorem Source.leaf (hn : (mk h cs fs b).Source) (hk : h.kind.fixed? = some 0) :
    cs = [] ∧ fs = [] ∧ b = .absent :=
  (every_mk.1 hn).1.shaped.fixed _ hk |>.imp_left List.length_eq_zero_iff.1

theorem Source.one (hn : (mk h (n :: cs) fs b).Source) (hk : h.kind.fixed? = some 1) :
    cs = [] ∧ fs = [] ∧ b = .absent :=
  (every_mk.1 hn).1.shaped.fixed _ hk |>.imp_left (by simp)

theorem Source.two (hn : (mk h (n :: m :: cs) fs b).Source) (hk : h.kind.fixed? = some 2) :
    cs = [] ∧ fs = [] ∧ b = .absent :=
  (every_mk.1 hn).1.shaped.fixed _ hk |>.imp_left (by simp)

end Fixed

theorem Source.not_made (hn : (mk h cs fs b).Source) :
    ¬ (h.kind = .literal ∨ h.kind = .typedCall) := by
  have hsource := (every_mk.1 hn).1
  rintro (hk | hk)
  · exact hsource.literal (congrArg some hk)
  · exact hsource.typedCall (congrArg some hk)

theorem Source.takes (hn : (mk h cs fs b).Source) : h.Takes cs.length :=
  (every_mk.1 hn).1.shaped.takes

theorem Source.children (hn : (mk h cs fs b).Source) : ∀ c ∈ cs, c.Source := (every_mk.1 hn).2.1

theorem Source.body (hn : (mk h cs fs b).Source) : b.Source := (every_mk.1 hn).2.2.2

theorem Source.first {n : Node} (hn : (mk h (n :: cs) fs b).Source) : n.Source :=
  hn.children n (by simp)

theorem Source.second {n m : Node} (hn : (mk h (n :: m :: cs) fs b).Source) : m.Source :=
  hn.children m (by simp)

/-- A node of a kind that has nothing below it is lowered. -/
theorem Source.lowered_leaf (hn : (mk h cs fs b).Source) (hk : h.kind.fixed? = some 0) :
    (mk h cs fs b).Lowered := by
  obtain ⟨rfl, -⟩ := hn.leaf hk
  exact hn.lowered (Kind.hasParts_of_fixed? hk) nofun

theorem Source.lowered_name (hn : (mk h cs fs b).Source) (hk : h.kind = .ident) :
    (mk h cs fs b).Lowered := hn.lowered_leaf (hk ▸ rfl)

end Lowered

theorem PlainPath.lowered {n : Node} (hn : n.PlainPath) : n.Lowered := by
  have hname : ∀ {h : Head}, h.kind = .ident → (mk h [] [] .absent).Lowered := fun hk =>
    lowered_mk (by simp [hk]) (by simp [hk]) nofun nofun every_absent
  induction hn with
  | name hk => exact hname hk
  | access hk _ hlast ih =>
    refine lowered_mk ?_ ?_ (by simp [ih, hname hlast]) nofun every_absent
    all_goals rcases hk with hk | hk <;> simp [hk]

theorem Source.wellFormed {n : Node} (hn : n.Source) : n.WellFormed :=
  fun m hm => (hn m hm).shaped

/-- A chain of names is lowered. -/
theorem Source.lowered_names {n : Node} (hn : n.Source) {path}
    (hchain : n.chain? = some ⟨path, none⟩) : n.Lowered :=
  ((chain?_eq_some_iff.1 hchain).plainPath hn.wellFormed rfl).lowered

/-- The end of a chain is part of the tree. -/
theorem Source.tail {n tail : Node} (hn : n.Source) {path}
    (hchain : n.chain? = some ⟨path, some tail⟩) : tail.Source := by
  rcases (chain?_eq_some_iff.1 hchain).end_cases with ⟨rfl, -⟩ | ⟨h, left, rest, fs, b, rfl, -⟩
  · exact hn
  · exact hn.children tail (by simp)

end Node

namespace Analysis

open Node

variable {n n' b : Node} {type expected : Ty} {h : Head} {ns ns' cs cs' : List Node}
  {fs : List (Component Node)}

theorem encodeArm_lowered {loc owner path arm} {ordinal : Int} {payload}
    (hpayload : ∀ f ∈ payload, f.value.Lowered) :
    (encodeArm loc owner path arm ordinal payload).Lowered := by
  have hliteral : ∀ {type : Ty} {fs : List (Component Node)}, (∀ f ∈ fs, f.value.Lowered) →
      (Node.ofFields { kind := .literal, loc, type } fs).Lowered := fun hfs =>
    lowered_mk nofun nofun nofun hfs every_absent
  have hordinal : (Node.leaf { kind := .int, loc, integer := ordinal }).Lowered :=
    lowered_mk nofun nofun nofun nofun every_absent
  refine hliteral ?_
  simp only [List.forall_mem_cons]
  refine ⟨hordinal, hliteral ?_, nofun⟩
  simp only [List.forall_mem_cons]
  exact ⟨hliteral hpayload, nofun⟩

/-- What takes the place of a chain is lowered, if that is so of the operands in it. -/
theorem Replacement.lowered {R : Node → Node → Prop} (hR : ∀ {n n'}, R n n' → n.Source → n'.Lowered)
    {tail loc} (h : Replacement (List.Forall₂ R) (List.Forall₂ (Component.Lift R))
      (fun given args => ∀ x ∈ args, ∃ f ∈ given, f.value = x) tail loc n)
    (htail : ∀ t, tail = some t → t.Source) : n.Lowered := by
  have hall : ∀ {cs cs' : List Node}, List.Forall₂ R cs cs' → (∀ c ∈ cs, c.Source) →
      ∀ c ∈ cs', c.Lowered := by
    intro cs cs' hcs hs c' hc'
    obtain ⟨c, hc, hsame⟩ := exists_of_forall₂_right hcs hc'
    exact hR hsame (hs c hc)
  have hfields : ∀ {fs fs' : List (Component Node)}, List.Forall₂ (Component.Lift R) fs fs' →
      (∀ f ∈ fs, f.value.Source) → ∀ f ∈ fs', f.value.Lowered := by
    intro fs fs' hfs hs f' hf'
    obtain ⟨_, hf, ⟨hsame⟩⟩ := exists_of_forall₂_right hfs hf'
    exact hR hsame (hs _ hf)
  cases h with
  | number => exact lowered_mk nofun nofun nofun nofun every_absent
  | literal _ hfs hbuilt =>
    have hfs := hfields hfs (every_mk.1 (htail _ rfl)).2.2.1
    exact lowered_mk nofun nofun nofun
      (fun f hf => hfs f (mem_of_mem_kept (hbuilt.subset hf))) every_absent
  | emptyArm => exact encodeArm_lowered nofun
  | tupleArm _ _ hcs =>
    have hcs := hall hcs (htail _ rfl).children
    exact encodeArm_lowered fun f hf => hcs _ (List.mem_map_of_mem hf)
  | structArm _ hfs hpayload =>
    have hfs := hfields hfs (every_mk.1 (htail _ rfl)).2.2.1
    exact encodeArm_lowered fun f hf => hfs f (mem_of_mem_kept (hpayload.subset hf))
  | call _ _ hcs =>
    exact lowered_mk nofun nofun (hall hcs (htail _ rfl).children) nofun every_absent
  | callByName _ _ hfs horder =>
    have hfs := hfields hfs (every_mk.1 (htail _ rfl)).2.2.1
    refine lowered_mk nofun nofun (fun x hx => ?_) nofun every_absent
    obtain ⟨f, hf, rfl⟩ := horder x hx
    exact hfs f hf

/-! ## Operands -/

/-- What a judgement accepts leads from states with a property to such states, and a node as it was
read is related to what is made of it. -/
structure Judgement.Carries (B : Judgement) (P : State → Prop) (Q : Node → Node → Prop) : Prop where
  next : ∀ {s : State} {n : Node} {expected : Ty} {n' : Node} {type : Ty} {s' : State},
    B s n expected n' type s' → P s → P s'
  gives : ∀ {s : State} {n : Node} {expected : Ty} {n' : Node} {type : Ty} {s' : State},
    B s n expected n' type s' → P s → n.Source → Q n n'

section Operands

variable {B : Judgement} {P : State → Prop} {Q : Node → Node → Prop} (hB : B.Carries P Q)
  {s s' : State} (hs : P s)

include hB hs

theorem OfType.carries (h : OfType B type s n n' s') (hn : n.Source) : Q n n' := by
  obtain ⟨_, h, -⟩ := h
  exact hB.gives h hs hn

theorem AsIndex.carries (h : AsIndex B s n n' s') (hn : n.Source) : Q n n' := by
  obtain ⟨_, h, -⟩ := h
  exact hB.gives h hs hn

theorem Conditions.carries (h : Conditions B s ns ns' s') (hns : ∀ n ∈ ns, n.Source) :
    List.Forall₂ Q ns ns' := by
  induction h with
  | nil => exact .nil
  | cons hn _ ih =>
    obtain ⟨hsource, hrest⟩ := List.forall_mem_cons.1 hns
    obtain ⟨_, hn, -⟩ := hn
    exact .cons (hB.gives hn hs hsource) (ih (hB.next hn hs) hrest)

theorem TupleElems.carries {hints types} (h : TupleElems B s hints ns ns' types s')
    (hns : ∀ n ∈ ns, n.Source) : List.Forall₂ Q ns ns' := by
  induction h with
  | nil => exact .nil
  | cons hn _ ih =>
    obtain ⟨hsource, hrest⟩ := List.forall_mem_cons.1 hns
    exact .cons (hB.gives hn hs hsource) (ih (hB.next hn hs) hrest)

theorem ArrayElems.carries {elem elem'} (h : ArrayElems B s elem ns ns' elem' s')
    (hns : ∀ n ∈ ns, n.Source) : List.Forall₂ Q ns ns' := by
  induction h with
  | nil => exact .nil
  | cons hn _ _ ih =>
    obtain ⟨hsource, hrest⟩ := List.forall_mem_cons.1 hns
    exact .cons (hB.gives hn hs hsource) (ih (hB.next hn hs) hrest)

theorem OperandPair.carries {left right left' right' : Node}
    (h : OperandPair B s left right expected left' right' type s') (hleft : left.Source)
    (hright : right.Source) : Q left left' ∧ Q right right' := by
  unfold OperandPair at h
  split at h
  · obtain ⟨_, _, hr, hl, -⟩ := h
    exact ⟨hB.gives hl (hB.next hr hs) hleft, hB.gives hr hs hright⟩
  · obtain ⟨_, _, hl, hr, -⟩ := h
    exact ⟨hB.gives hl hs hleft, hB.gives hr (hB.next hl hs) hright⟩

/-- The operands of an operation are all there is, and all are analysed. -/
theorem Operation.carries (hop : Operation B h expected s cs cs' type s')
    (hn : (Node.mk h cs fs b).Source) : List.Forall₂ Q cs cs' := by
  cases hop with
  | logical _ _ hcs => exact hcs.carries hB hs hn.children
  | binary hk _ hpair =>
    obtain ⟨rfl, -⟩ := hn.two (hk ▸ rfl)
    obtain ⟨hl, hr⟩ := hpair.carries hB hs hn.first hn.second
    exact .cons hl (.cons hr .nil)
  | unary hk hoperand | borrow hk hoperand | cast hk hoperand | deref hk hoperand =>
    obtain ⟨rfl, -⟩ := hn.one (hk ▸ rfl)
    exact .cons (hB.gives hoperand hs hn.first) .nil
  | unit => exact .nil
  | tuple _ _ hcs => exact hcs.carries hB hs hn.children
  | array _ _ hcs => exact hcs.carries hB hs hn.children
  | index hk hbase helem hidx =>
    obtain ⟨rfl, -⟩ := hn.two (hk ▸ rfl)
    obtain ⟨rfl, -⟩ := (elementType_returns _ _).of_run helem.run _ rfl
    exact .cons (hB.gives hbase hs hn.first)
      (.cons (hidx.carries hB (hB.next hbase hs) hn.second) .nil)

omit hB hs in
/-- An operation has nothing but operands. -/
theorem Operation.hasParts (hop : Operation B h expected s cs cs' type s') :
    h.kind.hasParts = false := by
  cases hop with
  | _ hk => rw [hk]; rfl

end Operands

/-! ## Expressions -/

/-- What a judgement accepts is lowered. -/
def Judgement.Lowers (B : Judgement) : Prop :=
  ∀ {s : State} {n : Node} {expected : Ty} {n' : Node} {type : Ty} {s' : State},
    B s n expected n' type s' → n.Source → n'.Lowered

section Expressions

variable {B : Judgement} (hB : B.Lowers) {s s' : State}

include hB

theorem Judgement.Lowers.carries : B.Carries (fun _ => True) fun _ n' => n'.Lowered :=
  ⟨fun _ _ => trivial, fun h _ hn => hB h hn⟩

theorem OfType.lowered (h : OfType B type s n n' s') (hn : n.Source) : n'.Lowered :=
  h.carries hB.carries trivial hn

theorem AsIndex.lowered (h : AsIndex B s n n' s') (hn : n.Source) : n'.Lowered :=
  h.carries hB.carries trivial hn

theorem Stored.lowered (hv : Stored B h type s n n' s')
    (hn : n.Source) : n'.Lowered := hv.2.lowered hB hn

theorem Operation.lowered (hop : Operation B h expected s cs cs' type s')
    (hn : (Node.mk h cs fs b).Source) : (Node.mk h cs' fs b).Lowered := by
  refine hn.lowered hop.hasParts fun c' hc' => ?_
  obtain ⟨c, -, hlowered⟩ := exists_of_forall₂_right (hop.carries hB.carries trivial hn) hc'
  exact hlowered

theorem PlaceOf.lowered {p} (h : PlaceOf B s n n' p s') (hn : n.Source) : n'.Lowered := by
  induction h with
  | name hk => exact hn.lowered_name hk
  | path _ hchain => exact hn.lowered_names hchain
  | member hk hname _ _ ih =>
    obtain ⟨rfl, -⟩ := hn.two (hk ▸ rfl)
    exact hn.lowered (hk ▸ rfl) (by simp [ih hn.first, hn.second.lowered_name hname])
  | element hk _ _ hidx ih =>
    obtain ⟨rfl, -⟩ := hn.two (hk ▸ rfl)
    exact hn.lowered (hk ▸ rfl) (by simp [ih hn.first, hidx.lowered hB hn.second])
  | pointee hk hoperand =>
    obtain ⟨rfl, -⟩ := hn.one (hk ▸ rfl)
    exact hn.lowered (hk ▸ rfl) (by simpa using hB hoperand hn.first)

/-- An assignment to a name, also at the end of a chain. -/
theorem Stored.lowered_name {target : Head} {tcs rest tfs tb value value'}
    (hvalue : Stored B h type s value value' s') (hk : h.kind = .assign)
    (hname : target.kind = .ident)
    (hn : (Node.mk h (.mk target tcs tfs tb :: value :: rest) fs b).Source) :
    (Node.mk h (.mk target tcs tfs tb :: value' :: rest) fs b).Lowered := by
  obtain ⟨rfl, -⟩ := hn.two (hk ▸ rfl)
  have htarget := hn.first.lowered_name hname
  exact hn.lowered (hk ▸ rfl) (by simp [htarget, hvalue.lowered hB hn.second])

theorem Assignment.lowered (ha : Assignment B h s cs cs' s') (hk : h.kind = .assign)
    (hn : (Node.mk h cs fs b).Source) : (Node.mk h cs' fs b).Lowered := by
  cases ha with
  | name hname hvalue =>
    obtain ⟨_, _, _, _, _, _, _, _, _, hvalue, _⟩ := hvalue
    exact hvalue.lowered_name hB hk hname hn
  | place _ htarget _ hvalue =>
    obtain ⟨rfl, -⟩ := hn.two (hk ▸ rfl)
    exact hn.lowered (hk ▸ rfl)
      (by simp [htarget.lowered hB hn.first, hvalue.lowered hB hn.second])

theorem Access.lowered (h : Access B s n n' type s') (hn : n.Source) : n'.Lowered := by
  cases h with
  | member hmember hname hleft =>
    have hk := Option.some.inj hmember.1
    obtain ⟨rfl, -⟩ := hn.two (hk ▸ rfl)
    exact hn.lowered (hk ▸ rfl) (by simp [hB hleft hn.first, hn.second.lowered_name hname])
  | writeMember hmember hassign hname hleft _ _ hvalue =>
    have hk := Option.some.inj hmember.1
    obtain ⟨rfl, -⟩ := hn.two (hk ▸ rfl)
    have hright := hvalue.lowered_name hB hassign hname hn.second
    exact hn.lowered (hk ▸ rfl) (by simp [hleft.lowered hB hn.first, hright])
  | «variable» _ hchain => exact hn.lowered_names hchain
  | writeVariable _ hchain hassign _ _ _ hvalue =>
    cases chain?_eq_some_iff.1 hchain with
    | built hk => rcases hk with hk | hk <;> rw [hk] at hassign <;> cases hassign
    | access hk hleft hright =>
      cases hright with
      | built hk => rcases hk with hk | hk <;> rw [hk] at hassign <;> cases hassign
      | assigned _ hname =>
        obtain ⟨_, _, he, rfl, rfl⟩ := (every_mk.1 hn).1.shaped.access hk
        cases he
        have hleft := (hleft.plainPath hn.first.wellFormed rfl).lowered
        have hright := hvalue.lowered_name hB hassign hname hn.second
        rw [withTail, if_pos hk]
        exact hn.lowered (by rcases hk with hk | hk <;> rw [hk] <;> rfl) (by simp [hleft, hright])
  | replaced _ hchain _ _ hnew =>
    refine hnew.new.lowered (fun hoperand hn => ?_) fun t ht => ?_
    · obtain ⟨_, _, _, _, _, h⟩ := hoperand
      exact hB h hn
    · subst ht
      exact hn.tail hchain

/-- An expression that is accepted is lowered, if that is so of the expressions below. -/
theorem Accepts.lowered (h : Accepts B expected s n n' type s') (hn : n.Source) : n'.Lowered := by
  cases h with
  | int hk | float hk | str hk | bool hk | name hk =>
    exact hn.lowered_leaf (hk ▸ rfl)
  | made hk => exact absurd hk hn.not_made
  | operation hcs => exact hcs.lowered hB hn
  | assignment hk hcs => exact hcs.lowered hB hk hn
  | access _ h => exact h.lowered hB hn

end Expressions

theorem elaborates_lowers : ∀ k, (Elaborates k).Lowers
  | 0 => fun h => h.elim
  | k + 1 => fun h hn => Accepts.lowered (elaborates_lowers k) h hn

/-! ## Statements -/

/-- What can be declared to be defined elsewhere. -/
inductive ForeignItem : Node → Prop
  | function {h : Head} {cs fs} (hkind : h.kind = .funcDef) :
    ForeignItem (.mk h cs fs .absent)
  | variable {h : Head} {fs b}
      (hkind : h.kind = .varDef ∨ h.kind = .staticDef) : ForeignItem (.mk h [] fs b)

theorem foreignFunction_passes (h : Head) (b : Node) (analyse : List Node → Analysis (List Node)) :
    Passes (function h .foreignFn b analyse) fun _ _ _ => b = .absent := by
  refine (redefined_passes _ _).bind fun taken => ?_
  cases taken with
  | true => exact .pure fun _ _ _ hfree => nomatch hfree.1
  | false =>
    refine (Growing.passes (.of_ensures fun s₀ =>
      declareFunction_ensures (grows_kept s₀).defining _ _)).bind fun params => ?_
    cases b with
    | absent => exact .pure fun _ _ _ _ _ _ => rfl
    | mk bh bcs bfs bb =>
      rw [if_neg (show ¬ (Node.mk bh bcs bfs bb).isAbsent = true from Bool.false_ne_true),
        if_pos (functionFlags_foreign h)]
      exact .rejects _ rfl _

theorem foreignVariable_passes (h : Head) (cs : List Node) :
    Passes (foreignVariable h cs) fun _ _ _ => cs = [] := by
  have hbind : Growing (bindForeign h) :=
    .of_ensures fun s₀ => bindForeign_ensures (grows_kept s₀).binds h
  refine (redefined_passes _ _).bind fun taken => ?_
  cases taken with
  | true => exact .pure fun _ _ _ hfree => nomatch hfree.1
  | false =>
    rw [if_neg Bool.false_ne_true]
    dsimp only
    split
    · rename_i hnone
      exact hbind.passes.mono fun _ _ _ _ _ _ => List.isEmpty_iff.1 hnone
    · exact .reports hbind _ rfl

theorem externItems_passes (items : List Node) :
    Passes (externItems items) fun _ _ _ => ∀ n ∈ items, ForeignItem n := by
  induction items with
  | nil => exact .pure fun _ _ => by simp
  | cons n rest hrest =>
    unfold externItems
    split
    · exact .reports hrest.growing _ rfl
    · split
      · rename_i hk
        refine (foreignFunction_passes _ _ _).bind fun _ => hrest.mono fun _ _ _ hrest _ hb => ?_
        subst hb
        exact List.forall_mem_cons.2 ⟨.function hk, hrest⟩
      · rename_i hk
        refine (foreignVariable_passes _ _).bind fun _ => hrest.mono fun _ _ _ hrest _ hcs => ?_
        subst hcs
        exact List.forall_mem_cons.2 ⟨.variable (.inl hk), hrest⟩
      · rename_i hk
        refine (foreignVariable_passes _ _).bind fun _ => hrest.mono fun _ _ _ hrest _ hcs => ?_
        subst hcs
        exact List.forall_mem_cons.2 ⟨.variable (.inr hk), hrest⟩
      · exact .reports hrest.growing _ rfl

theorem ForeignItem.lowered (h : ForeignItem n) (hn : n.Source) : n.Lowered := by
  cases h with
  | function hk =>
    obtain ⟨rfl, rfl, -⟩ := (every_mk.1 hn).1.shaped.function hk
    exact lowered_mk (by simp [hk]) (by simp [hk]) nofun nofun every_absent
  | «variable» hk => exact hn.lowered (by rcases hk with hk | hk <;> rw [hk] <;> rfl) nofun

/-- A statement that only declares something is lowered as it is. -/
theorem Declares.lowered {step s s'} (hstep : Declares h cs fs step) (hrun : CleanRun step s () s')
    (hn : (Node.mk h cs fs b).Source) : (Node.mk h cs fs b).Lowered := by
  cases hstep with
  | record hk =>
    obtain ⟨rfl, hfs, rfl⟩ := (every_mk.1 hn).1.shaped.record hk
    refine lowered_mk ?_ ?_ nofun (fun f hf => ?_) every_absent
    · rcases hk with hk | hk <;> simp [hk]
    · rcases hk with hk | hk <;> simp [hk]
    · rw [hfs f hf]
      exact every_absent
  | enum hk | variant hk | aliasType hk => exact hn.lowered_leaf (hk ▸ rfl)
  | foreign hk =>
    have hitems := (externItems_passes cs).of_run hrun
    exact hn.lowered (hk ▸ rfl) fun c hc => (hitems c hc).lowered (hn.children c hc)
  | jump hk =>
    rcases hk with hk | hk <;> exact hn.lowered_leaf (hk ▸ rfl)

/-- What a judgement accepts of statements is lowered. -/
def StmtJudgement.Lowers (S : StmtJudgement) : Prop :=
  ∀ {s : State} {n n' : Node} {s' : State}, S s n n' s' → n.Source → n'.Lowered

section Statements

variable {B : Judgement} {S : StmtJudgement} (hB : B.Lowers) (hS : S.Lowers) {s s' : State}

include hS

theorem Statements.lowered (h : Statements S s ns ns' s')
    (hns : ∀ n ∈ ns, n.Source) : ∀ n ∈ ns', n.Lowered := by
  induction h with
  | nil => exact nofun
  | cons hn _ ih =>
    obtain ⟨hs, hrest⟩ := List.forall_mem_cons.1 hns
    exact List.forall_mem_cons.2 ⟨hS hn hs, ih hrest⟩

theorem BodyOf.lowered (h : BodyOf S s ns ns' s')
    (hns : ∀ n ∈ ns, n.Source) : ∀ n ∈ ns', n.Lowered := by
  obtain ⟨_, h, -⟩ := h
  exact h.lowered hS hns

theorem Branch.lowered (h : Branch S s n n' s') (hn : n.Source) : n'.Lowered := by
  cases h with
  | block hk hbody => exact hn.lowered (hk ▸ rfl) (hbody.lowered hS hn.children)
  | single _ h => exact hS h hn

theorem Branches.lowered (h : Branches S s ns ns' s')
    (hns : ∀ n ∈ ns, n.Source) : ∀ n ∈ ns', n.Lowered := by
  induction h with
  | nil => exact nofun
  | cons hn _ ih =>
    obtain ⟨hs, hrest⟩ := List.forall_mem_cons.1 hns
    exact List.forall_mem_cons.2 ⟨hn.lowered hS hs, ih hrest⟩

/-- The body of a loop is all that is left of its operands. -/
theorem LoopBody.lowered (h : LoopBody S s ns ns' s') (hlen : ns.length ≤ 1)
    (hns : ∀ n ∈ ns, n.Source) : ∀ n ∈ ns', n.Lowered := by
  cases h with
  | nil => exact nofun
  | block hk hbody =>
    obtain ⟨_, hbody, -⟩ := hbody
    have hn := hns _ (List.mem_singleton_self _)
    simpa using hn.lowered (hk ▸ rfl) (hbody.lowered hS hn.children)
  | single _ hbody =>
    obtain ⟨_, hbody, -⟩ := hbody
    exact hbody.lowered hS hns
  | cons => simp at hlen

omit hS in
include hB in
theorem Initializer.lowered {storage} (hinit : Initializer B h storage s cs cs' s')
    (hlen : cs.length ≤ 1) (hcs : ∀ c ∈ cs, c.Source) : ∀ c ∈ cs', c.Lowered := by
  cases hinit with
  | inferred _ hinit =>
    obtain rfl : _ = [] := by simpa using hlen
    simpa using hB hinit (hcs _ (by simp))
  | none => exact nofun
  | declared _ _ hinit =>
    obtain rfl : _ = [] := by simpa using hlen
    simpa using hinit.lowered hB (hcs _ (by simp))

omit hS in
include hB in
theorem Returned.lowered (h : Returned B s cs cs' s') (hlen : cs.length ≤ 1)
    (hcs : ∀ c ∈ cs, c.Source) : ∀ c ∈ cs', c.Lowered := by
  cases h with
  | nothing => exact nofun
  | value _ _ hvalue =>
    obtain rfl : _ = [] := by simpa using hlen
    simpa using hvalue.lowered hB (hcs _ (by simp))

omit hB hS in
theorem declarationKind_cases {storage kind} (h : declarationKind storage = some kind) :
    kind = .varDef ∨ kind = .staticDef ∨ kind = .constDef := by
  cases storage <;> cases h <;> simp

include hB

/-- A statement that is accepted is lowered, if that is so of the nodes below. -/
theorem Performs.lowered (h : Performs B S s n n' s') (hn : n.Source) : n'.Lowered := by
  cases h with
  | module hk _ hbody => exact hn.lowered (hk ▸ rfl) (hbody.lowered hS hn.children)
  | declaration hstep hrun => exact hstep.lowered hrun hn
  | signature hk => exact (ForeignItem.function hk).lowered hn
  | function hk _ _ _ hbody =>
    obtain ⟨rfl, rfl, hblock⟩ := (every_mk.1 hn).1.shaped.function hk
    have hblock := Option.some.inj (hblock.resolve_left nofun)
    obtain ⟨_, ⟨_, _, _, hbody, -⟩, -⟩ := hbody
    exact lowered_mk (by simp [hk]) (by simp [hk]) nofun nofun
      (hn.body.lowered (hblock ▸ rfl) (hbody.lowered hS hn.body.children))
  | «variable» hk _ hinit =>
    have hkind := declarationKind_cases hk
    refine hn.lowered ?_ (hinit.lowered hB ?_ hn.children)
    · rcases hkind with hk | hk | hk <;> rw [hk] <;> rfl
    · rcases hkind with hk | hk | hk <;> simpa only [Head.Takes, hk] using hn.takes
  | block hk hbody =>
    obtain ⟨_, hbody, -⟩ := hbody
    refine hn.lowered ?_ (hbody.lowered hS hn.children)
    rcases hk with ⟨hk, -⟩ | ⟨hk, -⟩ <;> rw [hk] <;> rfl
  | conditional hk hcondition hrest =>
    refine hn.lowered (hk ▸ rfl) (List.forall_mem_cons.2 ⟨hcondition.lowered hB hn.first, ?_⟩)
    exact hrest.lowered hS fun c hc => hn.children c (List.mem_cons_of_mem _ hc)
  | whileLoop hk hcondition hrest =>
    obtain ⟨hlen, -⟩ := (every_mk.1 hn).1.shaped.fixed 2 (hk ▸ rfl)
    refine hn.lowered (hk ▸ rfl) (List.forall_mem_cons.2 ⟨hcondition.lowered hB hn.first, ?_⟩)
    exact hrest.lowered hS (Nat.le_of_eq (Nat.succ.inj hlen)) fun c hc =>
      hn.children c (List.mem_cons_of_mem _ hc)
  | loop hk _ hcs =>
    obtain ⟨hlen, -⟩ := (every_mk.1 hn).1.shaped.fixed 1 (hk ▸ rfl)
    exact hn.lowered (hk ▸ rfl) (hcs.lowered hS (Nat.le_of_eq hlen) hn.children)
  | returned hk hcs =>
    have htakes := hn.takes
    simp only [Head.Takes, TreeReader.takes, hk, decide_eq_true_eq] at htakes
    exact hn.lowered (hk ▸ rfl) (hcs.lowered hB htakes hn.children)
  | assignment hk hcs => exact hcs.lowered hB hk hn
  | expression _ h => exact hB h hn

end Statements

theorem stmtElaborates_lowers : ∀ k, (StmtElaborates k).Lowers
  | 0 => fun h => h.elim
  | k + 1 => fun h hn => Performs.lowered (elaborates_lowers k) (stmtElaborates_lowers k) h hn

/-- Analysis of a tree that was read and holds no node that analysis makes, if it reports no error,
leaves no call and no literal anywhere. The program is accepted: a chain in it is kept where it reads
or writes a member or a variable, and is replaced by what it means where it names anything else. -/
theorem analyzeBy_lowered {src unit : String} {tree : Node} (hread : Node.read src unit = .ok tree)
    (hnew : tree.Every fun n => n.kind? ≠ some .literal ∧ n.kind? ≠ some .typedCall)
    (schedule : Schedule) (cfg : Config)
    (hok : (tree.analyzeBy schedule cfg).diagnostics.hasErrors = false) :
    (tree.analyzeBy schedule cfg).tree.Lowered ∧
    ∃ s, ProgramOf (StmtElaborates cfg.depthLimit) tree (tree.analyzeBy schedule cfg).tree s ∧
      s.table = (tree.analyzeBy schedule cfg).table := by
  have hsource : tree.Source := fun n hn =>
    ⟨Node.read_wellFormed hread n hn, (hnew n hn).1, (hnew n hn).2⟩
  obtain ⟨s, ⟨hkind, cs', htree, hbody⟩, htable⟩ := accepted_of_hasErrors hok
  refine ⟨?_, s, ⟨hkind, cs', htree, hbody⟩, htable⟩
  rw [htree]
  cases tree with
  | absent => cases hkind
  | mk h cs fs b =>
    have hk := Option.some.inj hkind
    exact hsource.lowered (hk ▸ rfl) (hbody.lowered (stmtElaborates_lowers _) hsource.children)

/-- A member, a value of an enum, and a literal in a call. -/
def nestedChains : String :=
  "(program (struct P (field x i32)) (enum E (value A)) (var e E E::A)
    (fn f (params (p P)) i32 (block (return (dot p x)))) (var y i32 (call f (lit P \x7bx: 1\x7d))))"

theorem analyzeBy_lowered_nestedChains : ∃ tree, Node.read nestedChains "m" = .ok tree ∧
    (tree.analyzeBy .written {}).diagnostics.hasErrors = false ∧
    (tree.analyzeBy .written {}).tree.Lowered := by
  have hgood : (match Node.read nestedChains "m" with
      | .ok tree => decide
        ((∀ n ∈ tree.nodes, n.kind? ≠ some .literal ∧ n.kind? ≠ some .typedCall) ∧
          (tree.analyzeBy .written {}).diagnostics.hasErrors = false)
      | .error _ => false) = true := by decide +kernel
  rcases hread : Node.read nestedChains "m" with e | tree
  · rw [hread] at hgood
    cases hgood
  · rw [hread] at hgood
    obtain ⟨hnew, hok⟩ := of_decide_eq_true hgood
    exact ⟨tree, rfl, hok, (analyzeBy_lowered hread hnew .written {} hok).1⟩

end Analysis

end TreeSema
