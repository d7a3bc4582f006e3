import TreeSema.Proofs.Course.Resolve
import TreeSema.Proofs.Needs.Complete

/-!
# What the rules reach for

A rule takes operands of its node, items of lists and segments of paths by their places, without
asking whether they are there. `exprNeeds` and `stmtNeeds` list what the rule for each kind of node
reaches for in this way, and `bodyNeeds` what is reached for around the statements of a body; what
is found inside is come to later, and has needs of its own. Reading a chain, the name that an
expression starts from and the place that is borrowed goes down a tree by itself, and some of it in
trees that were analysed before.

In a complete tree and a sound table all of this is there.

* `Need`, `Need.Met`: what is reached for, and that it is there.
* `exprNeeds_met`, `stmtNeeds_met`, `bodyNeeds_met`: the needs of rules and bodies are met.
-/
namespace TreeSema.Analysis

/-! ## Needs -/

/-- Something that is reached for and has to be there. -/
inductive Need where
  | node (n : Node)
  | operand (n : Node) (i : Nat)
  /-- An item of a list with a number of items. -/
  | item (length i : Nat)
  /-- What follows the first items of a list with a number of items. -/
  | rest (length i : Nat)
  /-- The full name of what a path leads to. -/
  | canonical (path : List Ident)

/-- What is reached for is there. -/
def Need.Met : Need → Prop
  | node n => n ≠ .absent
  | operand n i => ∃ c, n.children[i]? = some c ∧ c ≠ .absent
  | item length i => i < length
  | rest length i => i ≤ length
  | canonical path => path ≠ []

/-- All of the needs are met. -/
def AllMet (needs : List Need) : Prop := ∀ need ∈ needs, need.Met

namespace AllMet

variable {needs needs' : List Need} {need : Need}

theorem nil : AllMet [] := List.forall_mem_nil _

theorem cons (h : need.Met) (h' : AllMet needs) : AllMet (need :: needs) :=
  List.forall_mem_cons.2 ⟨h, h'⟩

theorem append (h : AllMet needs) (h' : AllMet needs') : AllMet (needs ++ needs') :=
  List.forall_mem_append.2 ⟨h, h'⟩

theorem single (h : need.Met) : AllMet [need] := cons h nil

/-- The first items of a list are there if it is long enough. -/
theorem items {count length : Nat} (h : count ≤ length) :
    AllMet ((List.range count).map (.item length)) := by
  intro need hneed
  obtain ⟨i, hi, rfl⟩ := List.mem_map.1 hneed
  exact Nat.lt_of_lt_of_le (List.mem_range.1 hi) h

theorem nodes {ns : List Node} (h : ∀ n ∈ ns, n.Complete) : AllMet (ns.map .node) := by
  intro need hneed
  obtain ⟨n, hn, rfl⟩ := List.mem_map.1 hneed
  exact (h n hn).ne_absent

end AllMet

/-- The last item of a list is there if there is any. -/
theorem Need.met_last {length : Nat} (h : 0 < length) : (Need.item length (length - 1)).Met :=
  Nat.sub_one_lt_of_lt h

/-- An operand of a complete node is there if the node has as many. -/
theorem Need.met_operand {n : Node} (hn : n.Complete) {i : Nat} (hi : i < n.children.length) :
    (Need.operand n i).Met := by
  refine ⟨n.children[i], List.getElem?_eq_getElem hi, ?_⟩
  exact (Node.hereditary_complete.children hn _ (List.getElem_mem hi)).ne_absent

/-! ## Trees that are gone down -/

/-- The operands that the rule for a node takes. -/
def operandNeeds : Node → List Need
  | .absent => [.node .absent]
  | .mk h cs fs b => (List.range h.kind.arity).map (.operand (.mk h cs fs b))

/-- Nodes of some kinds are gone down by their first operands. -/
def spineNeeds (through : Kind → Bool) : Node → List Need
  | .absent => [.node .absent]
  | .mk h cs fs b =>
    if through h.kind then operandNeeds (.mk h cs fs b) ++
      match cs with
      | left :: _ => spineNeeds through left
      | [] => []
    else []

/-- The name that an expression starts from is looked for. -/
def originNeeds : Node → List Need :=
  spineNeeds fun kind => kind == .dot || kind == .path || kind == .index || kind == .deref

/-- The place that is borrowed is looked for. -/
def borrowNeeds : Node → List Need := spineNeeds fun kind => kind == .dot || kind == .index

/-- A chain is read. Of an assignment the target is looked at. -/
def chainNeeds : Node → List Need
  | .absent => [.node .absent]
  | .mk h cs fs b =>
    if h.kind = .dot ∨ h.kind = .path then operandNeeds (.mk h cs fs b) ++
      match cs with
      | left :: right :: _ =>
        chainNeeds left ++ if right.kind? = some .assign then operandNeeds right else []
      | _ => []
    else []

theorem operandNeeds_met {n : Node} (hn : n.Complete) : AllMet (operandNeeds n) := by
  cases n with
  | absent => exact absurd rfl hn.ne_absent
  | mk h cs fs b =>
    intro need hneed
    obtain ⟨i, hi, rfl⟩ := List.mem_map.1 hneed
    exact Need.met_operand hn (Nat.lt_of_lt_of_le (List.mem_range.1 hi) hn.supplied)

theorem spineNeeds_met (through : Kind → Bool) : ∀ {n : Node}, n.Complete →
    AllMet (spineNeeds through n)
  | .absent, hn => absurd rfl hn.ne_absent
  | .mk h cs fs b, hn => by
    unfold spineNeeds
    split
    · refine (operandNeeds_met hn).append ?_
      cases cs with
      | nil => exact .nil
      | cons left rest => exact spineNeeds_met through (hn.operands left (.head _))
    · exact .nil

theorem chainNeeds_met : ∀ {n : Node}, n.Complete → AllMet (chainNeeds n)
  | .absent, hn => absurd rfl hn.ne_absent
  | .mk h cs fs b, hn => by
    unfold chainNeeds
    split
    · refine (operandNeeds_met hn).append ?_
      rcases cs with _ | ⟨left, _ | ⟨right, rest⟩⟩
      · exact .nil
      · exact .nil
      · refine (chainNeeds_met (hn.operands left (.head _))).append ?_
        split
        · exact operandNeeds_met (hn.operands right (.tail _ (.head _)))
        · exact .nil
    · exact .nil

/-! ## Places and assignments -/

section Expressions

variable (below : ExprRule) (s : State)

/-- The last name of a path is taken. -/
def lastNeed (path : List Ident) : Need := .item path.length (path.length - 1)

/-- The target of an assignment is analysed. What a pointer is read from is looked at after its
analysis, which comes first. -/
def placeNeeds : Node → List Need
  | .absent => [.node .absent]
  | .mk h cs fs b =>
    match h.kind with
    | .path =>
      chainNeeds (.mk h cs fs b) ++
        ((Node.chain? (.mk h cs fs b)).elim [] fun c => [lastNeed c.path])
    | .dot =>
      operandNeeds (.mk h cs fs b) ++
        match cs with
        | left :: right :: _ => if right.kind? = some .ident then placeNeeds left else []
        | _ => []
    | .index =>
      operandNeeds (.mk h cs fs b) ++
        match cs with
        | base :: _ => placeNeeds base
        | [] => []
    | .deref =>
      operandNeeds (.mk h cs fs b) ++
        match cs with
        | operand :: _ => originNeeds (below operand .unknown s).1.1
        | [] => []
    | _ => []

def assignNeeds : List Node → List Need
  | target :: _ => if target.kind? = some .ident then [] else placeNeeds below s target
  | [] => []

/-- A member is written if an assignment ends the access. -/
def memberNeeds : List Node → List Need
  | left :: right :: _ =>
    if right.kind? = some .assign then operandNeeds right ++
      match right.children with
      | target :: _ => if target.kind? = some .ident then placeNeeds below s left else []
      | [] => []
    else []
  | _ => []

/-! ## Chains by what they name -/

/-- Arguments in order are held against the parameters, as far as these go. -/
def argumentNeeds (c : Chain) (sig : Signature) : List Need :=
  (List.range (min (c.tail.elim 0 (·.children.length)) sig.params.length)).map
    (.item sig.params.length)

/-- Each argument of a constructor has a type, once they are found to be as many. -/
def payloadNeeds (c : Chain) (payload : Payload) : List Need :=
  match payload, c.tail with
  | .tuple types, some tail =>
    if tail.children.length = types.length then
      (List.range tail.children.length).map (.item types.length)
    else []
  | _, _ => []

/-- A chain is taken for what it names. An enum or a variant has the name of its value or arm
without the last segment, and the struct for an arm stands beside the variant. -/
def namedNeeds (n : Node) (c : Chain) (e : SymbolEntry) : List Need :=
  match e.kind with
  | .enumValue _ _ => [lastNeed c.path, .canonical c.path.dropLast]
  | .variantArm _ payload _ =>
    let t := (constructorPayload below n c payload s).2.table
    payloadNeeds c payload ++
      [lastNeed c.path, .canonical c.path.dropLast, lastNeed (t.canonical c.path.dropLast)]
  | .structDef _ | .unionDef _ => [.canonical c.path]
  | .func sig => argumentNeeds c sig ++ [.canonical c.path]
  | .var _ => lastNeed c.path ::
      c.tail.elim [] fun tail => if tail.kind? = some .assign then operandNeeds tail else []
  | _ => []

def accessNeeds (n : Node) : List Need :=
  chainNeeds n ++ ((n.chain?.elim [] fun c => [.item c.path.length 0]) ++
    if n.kind? = some .dot ∧ s.table.startsAtValue n then memberNeeds below s n.children
    else n.chain?.elim [] fun c => (s.table.resolve c.path).elim [] (namedNeeds below s n c))

/-! ## Expressions and statements -/

/-- What the rule for an expression reaches for. -/
def exprNeeds (expected : Ty) : Node → List Need
  | .absent => [.node .absent]
  | .mk h cs fs b => operandNeeds (.mk h cs fs b) ++
    match h.kind with
    | .ref =>
      match cs with
      | operand :: _ => borrowNeeds (below operand (borrowedType s.table expected) s).1.1
      | [] => []
    | .assign => assignNeeds below s cs
    | .call | .lit | .dot | .path => accessNeeds below s (.mk h cs fs b)
    | .tuple =>
      let hints := tupleHints s.table expected cs.length
      if hints.isEmpty then [] else (List.range cs.length).map (.item hints.length)
    | _ => []

end Expressions

section Statements

variable (cfg : Config) (below : Below) (s : State)

/-- Around the statements of a body. Types that were queued in it are taken from the queue. -/
def bodyNeeds (nodes : List Node) : List Need :=
  nodes.map .node ++
    [.rest (statements below (lookAhead cfg below nodes) s).2.declared.length s.declared.length]

/-- Around the body of a function. Each parameter stands where it is written, and the result type is
taken away in the end. -/
def functionNeeds (h : Head) (b : Node) : List Need :=
  if (s.table.lookup h.name).isSome || b.isAbsent then []
  else
    let ended := (body cfg below b.children (functionStart h s)).2
    (List.range (declareFunction h (functionFlags h .plain) s).1.length).map
      (.item h.params.length) ++ [.item ended.returns.length (ended.returns.length - 1)]

/-- What the rule for a statement reaches for. -/
def stmtNeeds : Node → List Need
  | .absent => [.node .absent]
  | .mk h cs fs b => operandNeeds (.mk h cs fs b) ++
    match h.kind with
    | .funcDef => functionNeeds cfg below s h b
    | .externBlock => cs.map .node
    | .ifThen => cs.tail.map .node
    | .whileLoop | .loop => [.operand (.mk h cs fs b) (cs.length - 1)]
    | .assign => assignNeeds below.expr s cs
    | _ => []

end Statements

/-! ## Needs are met -/

section Met

variable {below : ExprRule} {s : State} {n : Node}

theorem chain_path_ne_nil {c : Chain} (h : n.chain? = some c) : c.path ≠ [] := by
  cases Node.chain?_eq_some_iff.1 h with
  | name _ => simp
  | built _ => simp
  | access _ _ hright => cases hright <;> simp

theorem lastNeed_met {path} (h : path ≠ []) : (lastNeed path).Met :=
  Need.met_last (List.length_pos_iff.2 h)

/-- A full name has a last segment. -/
theorem canonical_ne_nil (t : Symbols) {path} (h : path ≠ []) : t.canonical path ≠ [] := by
  simp [Symbols.canonical, Table.canonicalBy, h]

/-- A value of an enum or an arm of a variant has more than one segment. -/
theorem owner_ne_nil (hs : s.table.Sound) {path : List Ident} {e : SymbolEntry}
    (he : s.table.resolve path = some e) (hirregular : ¬ e.Regular) : path.dropLast ≠ [] := by
  obtain ⟨d, hd, -⟩ := (Symbols.finds_of_resolve he).owner hs hirregular
  exact hd.ne_nil

/-- The types for the elements of a tuple are as many as these, if there are any. -/
theorem tupleHints_length (t : Symbols) (expected : Ty) (size : Nat) :
    ¬ (tupleHints t expected size).isEmpty → (tupleHints t expected size).length = size := by
  unfold tupleHints
  split
  · split
    · exact fun _ => ‹_›
    · exact (absurd rfl ·)
  · exact (absurd rfl ·)

/-- The level below leaves trees complete. -/
def LeavesComplete (below : ExprRule) : Prop :=
  ∀ {n : Node}, n.Complete → ∀ expected s, (below n expected s).1.1.Complete

variable (hb : LeavesComplete below)

include hb

theorem placeNeeds_met : ∀ {n : Node}, n.Complete → AllMet (placeNeeds below s n)
  | .absent, hn => absurd rfl hn.ne_absent
  | .mk h cs fs b, hn => by
    unfold placeNeeds
    split
    · refine (chainNeeds_met hn).append ?_
      cases hchain : Node.chain? (.mk h cs fs b) with
      | none => exact .nil
      | some c => exact .single (lastNeed_met (chain_path_ne_nil hchain))
    · refine (operandNeeds_met hn).append ?_
      rcases cs with _ | ⟨left, _ | ⟨right, rest⟩⟩
      · exact .nil
      · exact .nil
      · dsimp only
        split
        · exact placeNeeds_met (hn.operands left (.head _))
        · exact .nil
    · refine (operandNeeds_met hn).append ?_
      cases cs with
      | nil => exact .nil
      | cons base rest => exact placeNeeds_met (hn.operands base (.head _))
    · refine (operandNeeds_met hn).append ?_
      cases cs with
      | nil => exact .nil
      | cons operand rest => exact spineNeeds_met _ (hb (hn.operands operand (.head _)) _ _)
    · exact .nil

theorem assignNeeds_met {cs} (hcs : ∀ c ∈ cs, c.Complete) : AllMet (assignNeeds below s cs) := by
  cases cs with
  | nil => exact .nil
  | cons target rest =>
    dsimp only [assignNeeds]
    split
    · exact .nil
    · exact placeNeeds_met hb (hcs target (.head _))

theorem memberNeeds_met {cs} (hcs : ∀ c ∈ cs, c.Complete) : AllMet (memberNeeds below s cs) := by
  rcases cs with _ | ⟨left, _ | ⟨right, rest⟩⟩
  · exact .nil
  · exact .nil
  · dsimp only [memberNeeds]
    split
    · refine (operandNeeds_met (hcs right (.tail _ (.head _)))).append ?_
      cases right.children with
      | nil => exact .nil
      | cons target more =>
        dsimp only
        split
        · exact placeNeeds_met hb (hcs left (.head _))
        · exact .nil
    · exact .nil

omit hb in
theorem payloadNeeds_met (c : Chain) (payload : Payload) : AllMet (payloadNeeds c payload) := by
  unfold payloadNeeds
  split
  · split
    · exact .items (Nat.le_of_eq ‹_›)
    · exact .nil
  · exact .nil

omit hb in
theorem namedNeeds_met (hs : s.table.Sound) {c : Chain} {e} (he : s.table.resolve c.path = some e)
    (htail : ∀ tail, c.tail = some tail → tail.Complete) : AllMet (namedNeeds below s n c e) := by
  have hpath : c.path ≠ [] := (Symbols.finds_of_resolve he).ne_nil
  unfold namedNeeds
  cases hk : e.kind with
  | enumValue owner value =>
    have howner := owner_ne_nil hs he (by simp [Entry.Regular, hk])
    exact .cons (lastNeed_met hpath) (.single howner)
  | variantArm owner payload ordinal =>
    have howner := owner_ne_nil hs he (by simp [Entry.Regular, hk])
    exact (payloadNeeds_met c payload).append (.cons (lastNeed_met hpath) (.cons howner
      (.single (lastNeed_met (canonical_ne_nil _ howner)))))
  | structDef fields => exact .single hpath
  | unionDef fields => exact .single hpath
  | func sig => exact (AllMet.items (Nat.min_le_right _ _)).append (.single hpath)
  | var v =>
    refine .cons (lastNeed_met hpath) ?_
    rcases htail' : c.tail with _ | tail
    · exact .nil
    · dsimp only [Option.elim]
      split
      · exact operandNeeds_met (htail tail htail')
      · exact .nil
  | _ => exact .nil

theorem accessNeeds_met (hs : s.table.Sound) (hn : n.Complete) :
    AllMet (accessNeeds below s n) := by
  refine (chainNeeds_met hn).append (.append ?_ ?_)
  · cases hchain : n.chain? with
    | none => exact .nil
    | some c => exact .single (List.length_pos_iff.2 (chain_path_ne_nil hchain))
  · split
    · exact memberNeeds_met hb (Node.hereditary_complete.children hn)
    · rcases hchain : n.chain? with _ | ⟨path, tail⟩
      · exact .nil
      · rcases he : s.table.resolve path with _ | e
        · simpa only [Option.elim, he] using AllMet.nil
        · simp only [Option.elim, he]
          refine namedNeeds_met hs he fun last hlast => ?_
          exact Node.hereditary_complete.inherited.tail hn (hchain.trans (by rw [← hlast]))

/-- What the rule for an expression reaches for in a complete tree is there. -/
theorem exprNeeds_met (hs : s.table.Sound) (hn : n.Complete) (expected : Ty) :
    AllMet (exprNeeds below s expected n) := by
  cases n with
  | absent => exact absurd rfl hn.ne_absent
  | mk h cs fs b =>
    refine (operandNeeds_met hn).append ?_
    split
    · cases cs with
      | nil => exact .nil
      | cons operand rest => exact spineNeeds_met _ (hb (hn.operands operand (.head _)) _ _)
    · exact assignNeeds_met hb hn.operands
    iterate 4 exact accessNeeds_met hb hs hn
    · dsimp only
      split
      · exact .nil
      · rename_i hhints
        exact .items (Nat.le_of_eq (tupleHints_length _ _ _ hhints).symm)
    · exact .nil

end Met

section Bodies

variable {cfg : Config} {schedule : Schedule} {s : State} {k : Nat}

variable (cfg k) in
theorem exprAt_leavesComplete : LeavesComplete (exprAt cfg k) :=
  fun hn _ _ => exprAt_complete cfg k hn _ _

/-- A repeated parameter is passed over. -/
theorem formals_length : ∀ (params : List Param) (done : List Formal) (s : State),
    (formals done params s).1.length ≤ done.length + params.length
  | [], _, _ => Nat.le_refl _
  | p :: rest, done, s => by
    unfold formals
    split
    · have hrest := formals_length rest done (report p.loc (.redefined p.name) s).2
      rw [List.length_cons]
      exact Nat.le_trans hrest (by omega)
    · have hrest := formals_length rest (done ++ [⟨p.name, p.type, p.mutable⟩])
        (checkType p.loc p.type s).2
      rw [List.length_append, List.length_singleton] at hrest
      rw [List.length_cons]
      exact Nat.le_trans hrest (by omega)

/-- Types are only queued between the start and the end of some statements. -/
theorem bodyNeeds_met {nodes} (hnodes : ∀ n ∈ nodes, n.Complete) :
    AllMet (bodyNeeds cfg (belowAt cfg schedule k) s nodes) := by
  refine (AllMet.nodes hnodes).append (.single ?_)
  have hslots : ∀ slot ∈ lookAhead cfg (belowAt cfg schedule k) nodes, True := fun _ _ => trivial
  have hmoves := statements_moving (P := fun _ => True) hslots
    (lookAhead_aheadOf cfg (belowAt cfg schedule k) nodes) s
  have hadds := hmoves.adds fun _ => Task.after_adds hereditary_true k
  exact hadds.declared.length_le

/-- The result type of a function is still there after its body. -/
theorem functionNeeds_met (h : Head) {b} :
    AllMet (functionNeeds cfg (belowAt cfg schedule k) s h b) := by
  unfold functionNeeds
  split
  · exact .nil
  · refine .append (.items ?_) (.single (Need.met_last ?_))
    · have hformals := formals_length h.params [] (checkType h.loc h.type s).2
      rwa [List.length_nil, Nat.zero_add] at hformals
    · have hchildren : ∀ c ∈ b.children, True := fun _ _ => trivial
      have hmoves := body_moving cfg (belowAt cfg schedule k) (P := fun _ => True) hchildren
        (functionStart h s)
      have hreturns := (hmoves.adds fun _ => Task.after_adds hereditary_true k).returns
      rw [hreturns]
      exact Nat.succ_pos _

/-- What the rule for a statement reaches for in a complete tree is there. -/
theorem stmtNeeds_met {n : Node} (hn : n.Complete) :
    AllMet (stmtNeeds cfg (belowAt cfg schedule k) s n) := by
  cases n with
  | absent => exact absurd rfl hn.ne_absent
  | mk h cs fs b =>
    have hloop : 1 ≤ h.kind.arity →
        (Need.operand (Node.mk h cs fs b) (cs.length - 1)).Met := fun harity =>
      Need.met_operand hn (Nat.sub_one_lt_of_lt (Nat.lt_of_lt_of_le harity hn.supplied))
    refine (operandNeeds_met hn).append ?_
    cases hk : h.kind with
    | funcDef => exact functionNeeds_met h
    | externBlock => exact .nodes hn.operands
    | ifThen => exact .nodes fun c hc => hn.operands c (List.mem_of_mem_tail hc)
    | whileLoop => exact .single (hloop (hk ▸ Nat.le_refl _))
    | loop => exact .single (hloop (hk ▸ Nat.le_refl _))
    | assign => exact assignNeeds_met (exprAt_leavesComplete cfg k) hn.operands
    | _ => exact .nil

end Bodies

end TreeSema.Analysis
