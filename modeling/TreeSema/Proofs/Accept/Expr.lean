import TreeSema.Proofs.Accept.Operand

/-!
# Expressions that are analysed without errors are accepted

A chain that is analysed without errors is a member access, a variable or is replaced, and so every
expression without errors is an instance of the rules of acceptance.

* `access_passes`: calls, literals and access chains.
* `exprStep_passes`: an expression that is analysed without errors is accepted, if those below are.
* `exprAt_passes`: the same at every level.
-/
namespace TreeSema.Analysis

variable {below : ExprRule} {B : Judgement}

section Chains

variable (hb : below.Honest B)

include hb

/-! ## What takes the place of a chain -/

theorem callArguments_passes (path : List Ident) (sig : Signature) (h : Head) (cs : List Node)
    (fs : List (Component Node)) (b : Node) :
    Passes (callArguments below path sig h cs fs b) fun s r _ => Accepted (fun _ args =>
      (h.named = false ∧ List.Forall₂ (Operand B s) cs args) ∨
      (h.named = true ∧ ∃ fs', List.Forall₂ (Component.Lift (Operand B s)) fs fs' ∧
        ∀ x ∈ args, ∃ f ∈ fs', f.value = x)) r := by
  unfold callArguments
  split
  · rename_i hnamed
    refine (argumentsByName_passes hb path sig fs).approved (fun _ => .pure _) fun fs' => ?_
    refine (inOrder_passes h.loc path fs' sig.params).bind fun args => ?_
    refine .pure fun s₂ _ s₁ hargs s hfs => ?_
    obtain ⟨args, rfl, hargs⟩ := hargs
    exact .mk (.inr ⟨hnamed, fs', hfs, hargs⟩)
  · rename_i hnamed
    refine (countArguments_passes _ _ _ _).bind fun ok => ?_
    cases ok with
    | false => exact .pure fun _ _ _ hok => nomatch hok.1
    | true =>
      refine (arguments_passes hb path _ cs).approved (fun _ => .pure _) fun cs' => ?_
      refine .pure fun s₂ _ s₁ hcs s hs => ?_
      obtain ⟨-, rfl⟩ := hs
      exact .mk (.inl ⟨by simpa using hnamed, hcs⟩)

section Named

variable {n : Node} {c : Chain}

theorem call_passes (sig : Signature) : Passes (call below n c sig) fun s r _ =>
    Accepted (fun n' type => Replaces B s c.tail n.loc .typedCall n' type) r := by
  obtain ⟨path, tail⟩ := c
  unfold call
  split
  · exact .rejects _ rfl _
  · exact .rejects _ rfl _
  · rename_i h cs fs b htail
    dsimp only at htail
    subst htail
    split
    · exact .rejects _ rfl _
    · rename_i hcall
      have hcall : h.kind = .call := not_not.1 hcall
      refine unsafeAllowed_passes.bind fun allowed => ?_
      split
      · exact .rejects _ rfl _
      · refine (callArguments_passes hb path sig h cs fs b).accepted (fun _ => .pure _)
          fun tail args => .symbols fun t => .pure fun s₂ _ _ s₁ hargs s hs => ?_
        subst hs
        refine .mk ⟨rfl, rfl, nofun, ?_⟩
        rcases hargs with ⟨hn, hcs⟩ | ⟨hn, fs', hfs, horder⟩
        · exact .call hcall hn hcs
        · exact .callByName hcall hn hfs horder

theorem literal_passes (fields : Fields) (union : Bool) :
    Passes (literal below n c fields union) fun s r _ =>
      Accepted (fun n' type => Replaces B s c.tail n.loc .literal n' type) r := by
  obtain ⟨path, tail⟩ := c
  unfold literal
  split
  · exact .rejects _ rfl _
  · exact .rejects _ rfl _
  · rename_i h cs fs b htail
    dsimp only at htail
    subst htail
    split
    · exact .rejects _ rfl _
    · rename_i hlit
      refine unsafeAllowed_passes.bind fun allowed => ?_
      split
      · exact .rejects _ rfl _
      · refine (components_passes hb fields path [] fs).accepted (fun _ => .pure _)
          fun fs' built => .symbols fun t => .pure fun s₂ _ _ s₁ hfs s hs => ?_
        subst hs
        obtain ⟨hfs, rfl⟩ := hfs
        exact .mk ⟨rfl, rfl, nofun, .literal (not_not.1 hlit) hfs (foldl_putComponent_perm fs')⟩

/-- What is given to a constructor is encoded. -/
theorem constructorPayload_passes (hchain : n.chain? = some c) (payload : Payload) :
    Passes (constructorPayload below n c payload) fun s r _ => Accepted (fun n' built =>
      n'.loc = n.loc ∧ ∀ owner path arm ordinal,
        Replaces B s c.tail n.loc .literal
          (encodeArm n.loc owner path arm ordinal built) (.custom owner)) r := by
  unfold constructorPayload
  split
  · split
    · rename_i hnothing
      exact .pure fun s _ => .mk ⟨rfl, fun _ _ _ _ => ⟨rfl, rfl, nofun, .emptyArm hnothing⟩⟩
    · exact .rejects _ rfl _
  · rename_i types h cs fs b htail
    split
    · exact .rejects _ rfl _
    · rename_i hcall
      obtain ⟨hcall, hnamed⟩ := not_or.1 hcall
      split
      · exact .rejects _ rfl _
      · rename_i hlen
        refine (tuplePayload_passes hb c.path 0 types cs (not_not.1 hlen)).accepted
          (fun _ => .pure _) fun cs' built => .pure fun s₁ _ s hcs => ?_
        refine .mk ⟨loc_withTail hchain htail rfl, fun _ _ _ _ => ⟨rfl, rfl, nofun, ?_⟩⟩
        rw [htail]
        exact .tupleArm (not_not.1 hcall) (by simpa using hnamed) hcs
  · rename_i fields h cs fs b htail
    split
    · exact .rejects _ rfl _
    · rename_i hlit
      refine (components_passes hb fields c.path [] fs).accepted (fun _ => .pure _)
        fun fs' built => .pure fun s₁ _ s hfs => ?_
      obtain ⟨hfs, rfl⟩ := hfs
      refine .mk ⟨loc_withTail hchain htail rfl, fun _ _ _ _ => ⟨rfl, rfl, nofun, ?_⟩⟩
      rw [htail]
      exact .structArm (not_not.1 hlit) hfs (foldl_putComponent_perm fs')
  · exact .rejects _ rfl _
  · exact .rejects _ rfl _

theorem construct_passes (hchain : n.chain? = some c) (owner : Ident) (payload : Payload)
    (ordinal : Int) : Passes (construct below n c owner payload ordinal) fun s r _ =>
      Accepted (fun n' type => Replaces B s c.tail n.loc .literal n' type) r := by
  refine (constructorPayload_passes hb hchain payload).accepted (fun _ => .pure _)
    fun n' built => ?_
  dsimp only
  split
  · exact .rejects _ rfl _
  · refine .symbols fun t => .pure fun s₁ _ _ s hnew => ?_
    obtain ⟨hloc, hnew⟩ := hnew
    refine .mk ?_
    rw [hloc]
    exact hnew _ _ _ _

omit hb in
theorem enumNumber_passes (value : Int) : Passes (enumNumber n c value) fun s r _ =>
    Accepted (fun n' type => Replaces B s c.tail n.loc .int n' type) r := by
  obtain ⟨path, tail⟩ := c
  unfold enumNumber
  split
  · exact .rejects _ rfl _
  · rename_i htail
    obtain rfl : tail = none := by simpa using htail
    exact .symbols fun t => .pure fun s _ _ => .mk ⟨rfl, rfl, fun _ => rfl, .number⟩

/-! ## Chains -/

variable (hchain : n.chain? = some c) {e : SymbolEntry}

include hchain

theorem moduleVariable_passes {v} (hv : e.kind = .var v) :
    Passes (moduleVariable below n c e v) fun s r s' => s.table.resolve c.path = some e →
      ¬ s.table.IsMember n → Accepted (fun n' type => Access B s n n' type s') r := by
  obtain ⟨path, tail⟩ := c
  unfold moduleVariable
  split
  · rename_i htail
    dsimp only at htail
    subst htail
    exact (readEntry_passes _ _ _).found (.pure _) fun type =>
      .pure fun s₁ _ s hrun he hmember => .mk (.variable hmember hchain he hv hrun)
  · rename_i h target value more fs b htail
    dsimp only at htail
    subst htail
    split
    · rename_i hassign
      exact (store_passes hb h _ value).approved (fun _ => .pure _) fun value' =>
        .pure fun s₁ _ s ⟨hw, hs⟩ he hmember =>
          .mk (.writeVariable hmember hchain hassign he hv hw hs)
    · exact .rejects _ rfl _
  · exact .rejects _ rfl _

/-- A chain is a variable or is replaced. -/
theorem named_passes : Passes (named below n c e) fun s r s' =>
    s.table.resolve c.path = some e → ¬ s.table.IsMember n → s.Marks s' →
      Accepted (fun n' type => Access B s n n' type s') r := by
  have hreplaced : ∀ {kind : Kind} {m : Analysis Typed}, e.kind.LowersTo kind →
      (Passes m fun s r _ =>
        Accepted (fun n' type => Replaces B s c.tail n.loc kind n' type) r) →
      Passes m fun s r s' => s.table.resolve c.path = some e → ¬ s.table.IsMember n →
        s.Marks s' → Accepted (fun n' type => Access B s n n' type s') r := by
    intro kind m hkind hm
    refine hm.mono fun s r s' hnew he hmember hmarks => ?_
    obtain ⟨hnew⟩ := hnew
    exact .mk (.replaced hmember hchain he hkind hnew hmarks)
  unfold named
  split
  · rename_i hk; exact hreplaced (hk ▸ .enumValue) (enumNumber_passes _)
  · rename_i hk; exact hreplaced (hk ▸ .variantArm) (construct_passes hb hchain _ _ _)
  · rename_i hk; exact hreplaced (hk ▸ .structDef) (literal_passes hb _ _)
  · rename_i hk; exact hreplaced (hk ▸ .unionDef) (literal_passes hb _ _)
  · rename_i hk; exact hreplaced (hk ▸ .func) (call_passes hb _)
  · rename_i hk
    exact (moduleVariable_passes hb hchain hk).mono fun _ _ _ h he hmember _ => h he hmember
  all_goals exact .rejects _ rfl _

end Named

theorem member_passes (h : Head) (cs : List Node) (fs : List (Component Node)) (b : Node) :
    Passes (member below h cs) fun s r s' => s.table.IsMember (.mk h cs fs b) →
      Accepted (fun cs' type => Access B s (.mk h cs fs b) (.mk h cs' fs b) type s') r := by
  unfold member
  split
  · rename_i left right rest
    split
    · exact .rejects _ rfl _
    · rename_i r rcs rfs rb
      split
      · rename_i hname
        refine (hb.gives left _).accepted (fun _ => .pure _) fun left' type => ?_
        refine (fieldType_passes _ _ _).found (.pure _) fun field => ?_
        exact .pure fun s₂ _ s₁ hrun s hl hmember => .mk (.member hmember hname hl hrun)
      · rename_i hassign
        split
        · rename_i target value more
          refine (memberPlace_passes _ left target (place_passes hb left)).accepted
            (fun _ => .bind (.pure _) fun _ => .pure _) fun left' p => ?_
          refine (store_passes hb r p value).approved (fun _ => .pure _) fun value' => ?_
          refine .pure fun s₂ _ s₁ hs s hp hmember => ?_
          obtain ⟨hw, hs⟩ := hs
          obtain ⟨f, tcs, tfs, tb, p, field, s₀, rfl, hname, hp, hfield, rfl⟩ := hp
          exact .mk (.writeMember hmember hassign hname hp hfield hw hs)
        · exact missingOperand_passes _ _ _
      iterate 2
        exact (hb.gives left _).accepted (fun _ => .pure _) fun left' type =>
          .symbols fun t => .rejects _ rfl _
      · exact .rejects _ rfl _
  · exact missingOperand_passes _ _ _

theorem access_passes {n : Node} (hkind : n.kind?.any Kind.isChain) :
    Passes (access below n) fun s r s' =>
      Accepted (fun n' type => Access B s n n' type s') r := by
  have hmarks := hb.marks_of fun _ L =>
    (L.access hereditary_true.inherited trivial hkind).judges
  refine Passes.mono (P := fun s r s' => (s.Marks s' →
    Accepted (fun n' type => Access B s n n' type s') r) ∧ s.Marks s')
    (.marks ?_ hmarks) fun s r s' h => h.1 h.2
  refine .symbols fun t => ?_
  split
  · rename_i hmember
    cases n with
    | absent => cases hkind
    | mk h cs fs b =>
      refine (member_passes hb h cs fs b).bind fun ⟨cs', type⟩ => .pure fun s₁ _ s hcs ht _ => ?_
      subst ht
      obtain ⟨haccess⟩ := hcs hmember
      exact .mk haccess
  · rename_i hmember
    split
    · exact .rejects _ rfl _
    · rename_i c hchain
      split
      · exact .rejects _ rfl _
      · rename_i e he
        refine (named_passes hb hchain).mono fun s r s' h ht hm => ?_
        subst ht
        exact h he hmember hm

end Chains

/-! ## Expressions -/

/-- An expression that is analysed without errors is accepted, if those below are. -/
theorem exprStep_passes (hb : below.Honest B) (expected : Ty) : ∀ n : Node,
    Passes (exprStep below expected n) fun s r s' =>
      Accepted (fun n' type => Accepts B expected s n n' type s') r
  | .absent => .rejects _ rfl _
  | .mk h cs fs b => by
    have haround : ∀ {operands : Analysis (List Node × Option Ty)},
        (Passes operands fun s r s' =>
          Accepted (fun cs' type => Operation B h expected s cs cs' type s') r) →
        Passes (around h fs b operands) fun s r s' =>
          Accepted (fun n' type => Accepts B expected s (.mk h cs fs b) n' type s') r := by
      exact fun ho => ho.accepted (fun _ => .pure _) fun cs' type =>
        .pure fun s₁ _ s hcs => .mk (.operation hcs)
    unfold exprStep
    dsimp only
    split
    · rename_i hk
      refine .symbols fun t => .pure fun s _ ht => ?_
      subst ht
      exact .mk (.int hk)
    · rename_i hk
      refine .symbols fun t => .pure fun s _ ht => ?_
      subst ht
      exact .mk (.float hk)
    · rename_i hk; exact .pure fun s _ => .mk (.str hk)
    · rename_i hk; exact .pure fun s _ => .mk (.bool hk)
    · rename_i hk
      exact (readName_passes h).found (.pure _) fun type =>
        .pure fun s₁ _ s hrun => .mk (.name hk hrun)
    · rename_i hk; exact haround (binary_passes hb hk expected cs)
    · rename_i hk; exact haround (unary_passes hb hk expected cs)
    · rename_i hk; exact haround (borrow_passes hb hk expected cs)
    · rename_i hk; exact haround (deref_passes hb hk expected cs)
    · rename_i hk
      exact (assign_passes hb h cs).approved (fun _ => .pure _) fun cs' =>
        .pure fun s₁ _ s hcs => .mk (.assignment hk hcs)
    iterate 4
      rename_i hk
      have hkind : (Node.mk h cs fs b).kind?.any Kind.isChain := by
        simp [Node.kind?, hk, Kind.isChain]
      refine (access_passes hb hkind).mono fun s r s' hr => ?_
      obtain ⟨hr⟩ := hr
      exact .mk (.access hkind hr)
    · rename_i hk; exact haround (tuple_passes hb hk expected cs)
    · rename_i hk; exact haround (array_passes hb hk expected cs)
    · rename_i hk; exact haround (index_passes hb hk expected cs)
    · rename_i hk; exact haround (cast_passes hb hk expected cs)
    · rename_i hk; exact .pure fun s _ => .mk (.made (.inl hk))
    · rename_i hk; exact .pure fun s _ => .mk (.made (.inr hk))
    · exact .rejects _ rfl _

/-- What is accepted at a level, by the rules of acceptance alone. -/
def Elaborates : Nat → Judgement
  | 0 => fun _ _ _ _ _ _ => False
  | k + 1 => fun s n expected n' type s' => Accepts (Elaborates k) expected s n n' type s'

/-- An expression that is analysed without errors is accepted, at every level. -/
theorem exprAt_elaborates (cfg : Config) : ∀ k, (exprAt cfg k).Honest (Elaborates k)
  | 0 => {
    gives := fun n _ =>
      (refuse_passes cfg n.loc).bind fun _ => .pure fun _ _ _ (h : False) => h.elim
    marks := exprAt_marks cfg 0 }
  | k + 1 => {
    gives := fun n expected => exprStep_passes (exprAt_elaborates cfg k) expected n
    marks := exprAt_marks cfg (k + 1) }

/-- An expression that is analysed without errors has a type. -/
theorem exprAt_honest (cfg : Config) (k : Nat) : (exprAt cfg k).Honest (exprAt cfg k).Gives where
  gives n expected := ((exprAt_elaborates cfg k).gives n expected).run.mono
    fun s r s' ⟨hrun, hr⟩ => by
      obtain ⟨-⟩ := hr
      exact .mk hrun
  marks := exprAt_marks cfg k

end TreeSema.Analysis
