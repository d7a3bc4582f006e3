import TreeSema.Proofs.Trace.Home
import TreeSema.Proofs.Trace.Stmt

/-!
# An immutable variable is written once

A write to a variable of a scope is a declaration of it with an initializer, or an assignment to its
name that is accepted. Along a run there is at most one write to each variable that is immutable and
no reference: `Symbols.due` is 1 to begin with, each write takes it to 0, and it never grows.

That needs a condition on the tree. An assignment looks at the variable before its value is analysed
and marks it afterwards; in between, an assignment in the value finds the variable without a value
and is accepted as well. In the same way an assignment in its own initializer is accepted if the
variable has a declared type. `Node.Separate` excludes these two.

* `Moment.assigns`, `Moment.initializes`: the moments at which a variable is written.
* `Accounts`: between two states no more is written than was due.
* `immutable_written_once`: in every body there is at most one write to a variable of its scope.
-/
namespace TreeSema

/-! ## Writes -/

/-- Is a name that of an immutable variable whose type, seen through aliases, is no reference? -/
def Symbols.isFixed (t : Symbols) (x : Ident) : Bool :=
  match t.lookup x with
  | some ⟨_, _, .var v, _⟩ =>
    !v.mutable && match t.underlying v.type with
      | .ref .. => false
      | _ => true
  | _ => false

/-- Does a kind of statement declare a variable? -/
def Kind.isVariable : Kind → Bool
  | .varDef | .staticDef | .constDef => true
  | _ => false

/-- No assignment to a name stands in the value of one by `=` to that name, or in the initializer of
an immutable variable of that name with a declared type. -/
def Node.Separate (x : Ident) (n : Node) : Prop :=
  (n.assigned? = some x ∧ n.head.op = "=" ∨ n.kind? = some .varDef ∧ n.head.name = x ∧
    n.head.mutable = false ∧ n.head.type.isUnknown = false) →
  ∀ c ∈ n.children, c.Every fun m => m.assigned? ≠ some x

instance (x : Ident) : DecidablePred (Node.Separate x) := fun n =>
  inferInstanceAs (Decidable (_ → ∀ c ∈ n.children, c.Every fun m => m.assigned? ≠ some x))

/-- An assignment to what a path leads to: its target is that path, or it ends a chain that does not
start at a value. -/
inductive Node.AssignsPath (t : Symbols) (path : List Ident) : Node → Prop
  | target {h : Head} {target value : Node} {rest fs b}
      (hk : h.kind = .assign) (hpath : target.kind? = some .path)
      (hchain : target.chain? = some ⟨path, none⟩) :
    AssignsPath t path (.mk h (target :: value :: rest) fs b)
  | chain {n tail : Node} (hchain : n.chain? = some ⟨path, some tail⟩)
      (hk : tail.kind? = some .assign) (hstart : n.kind? = some .dot → t.startsAtValue n = false) :
    AssignsPath t path n

namespace Analysis

variable (cfg : Config) (schedule : Schedule) (x : Ident) (d : Nat)

/-- An assignment to the immutable variable `x` of the scope with number `d` is accepted. -/
def Moment.assigns (m : Moment) : Bool :=
  m.task.node.assigned? == some x && m.task.state.table.home? x == some d &&
    m.task.state.table.isFixed x && m.task.accepted cfg m.levels

/-- The variable `x` of the scope with number `d` is declared with an initializer. -/
def Moment.initializes (m : Moment) : Bool :=
  match m.task with
  | .stmt run (.mk h (init :: rest) fs b) s =>
    h.kind.isVariable && h.name == x && s.table.depth == d && (s.table.lookup x).isNone &&
      ((stmtAt cfg schedule m.levels run (.mk h (init :: rest) fs b) s).2.table.entryAt d x).isSome
  | _ => false

/-- The variable `x` of the scope with number `d` is written. -/
def Moment.writes (m : Moment) : Bool := m.assigns cfg x d || m.initializes cfg schedule x d

/-- How often the variable is written in the course of some tasks. -/
def writesIn (k : Nat) (ts : List Task) : Nat :=
  (ts.flatMap (Task.moments cfg schedule k)).countP (·.writes cfg schedule x d)

variable {cfg schedule x d} {P : Node → Prop} {s s₁ s' : State} {ts ts' : List Task}

theorem writesIn_append (k : Nat) (ts ts' : List Task) :
    writesIn cfg schedule x d k (ts ++ ts')
      = writesIn cfg schedule x d k ts + writesIn cfg schedule x d k ts' := by
  simp [writesIn]

theorem writesIn_succ (k : Nat) (t : Task) :
    writesIn cfg schedule x d (k + 1) [t]
      = (if (⟨k + 1, t⟩ : Moment).writes cfg schedule x d then 1 else 0)
        + writesIn cfg schedule x d k (t.parts cfg (belowAt cfg schedule k)) := by
  simp only [writesIn, List.flatMap_singleton, Task.moments, List.countP_cons]
  omega

theorem writesIn_eq_zero {k : Nat} (h : ∀ t ∈ ts, ∀ m ∈ t.moments cfg schedule k,
    m.writes cfg schedule x d = false) : writesIn cfg schedule x d k ts = 0 := by
  refine List.countP_eq_zero.2 fun m hm => ?_
  obtain ⟨t, ht, hm⟩ := List.mem_flatMap.1 hm
  simp [h t ht m hm]

/-! ## Expressions without writes -/

/-- All that an expression comes to is expressions in it, in states that it leads to. -/
theorem moments_expr {I : State → Prop} (hI : Stable I) (hP : Hereditary P) : ∀ (k : Nat) {n : Node}
    (expected : Ty) {s : State}, P n → I s → ∀ m ∈ (Task.expr n expected s).moments cfg schedule k,
    ∃ n' expected' s', m.task = .expr n' expected' s' ∧ P n' ∧ I s'
  | 0, n, expected, s, hn, hs => List.forall_mem_singleton.2 ⟨n, expected, s, rfl, hn, hs⟩
  | k + 1, n, expected, s, hn, hs => by
    refine List.forall_mem_cons.2 ⟨⟨n, expected, s, rfl, hn, hs⟩, fun m hm => ?_⟩
    obtain ⟨t, ht, hm⟩ := List.mem_flatMap.1 hm
    have hthrough : ∃ s₁, Through (exprAt cfg k) P s
        ((Task.expr n expected s).parts cfg (belowAt cfg schedule k)) s₁ := by
      by_cases hk : n.kind? = some .assign
      · have ht : (Task.expr n expected s).Proper (belowAt cfg schedule (k + 1)) P := hn
        rcases Task.parts_cases hP k ht with ⟨-, s₁, hthrough, -⟩ | ⟨hk', -⟩
        · exact ⟨s₁, hthrough⟩
        · exact absurd hk hk'
      · exact ⟨_, exprStep_yields hP.inherited expected hn hk s⟩
    obtain ⟨s₁, hthrough⟩ := hthrough
    have hkeeps : ∀ n expected, Ensures I (exprAt cfg k n expected) fun _ => True :=
      exprAt_relates hI (trivial_rewriting _) cfg k
    obtain ⟨n', expected', s', rfl, hn', hs'⟩ := (hthrough.stable hI hkeeps hs).2 t ht
    exact moments_expr hI hP k expected' hn' hs' m hm

/-- An expression without an assignment to a name does not write it. -/
theorem moments_unassigned {k : Nat} {n : Node} (hn : n.Every fun m => m.assigned? ≠ some x)
    (expected : Ty) (s : State) : ∀ m ∈ (Task.expr n expected s).moments cfg schedule k,
    m.writes cfg schedule x d = false := by
  intro m hm
  obtain ⟨n', _, s', hm, hn', -⟩ :=
    moments_expr trivial_kept.toStable (hereditary_every _) k expected hn trivial m hm
  have hassigned : n'.assigned? ≠ some x := hn'.self (by simp [Node.assigned?])
  simp [Moment.writes, Moment.assigns, Moment.initializes, hm, Task.node, hassigned]

/-- An expression does not write a name that is free. -/
theorem moments_free {k : Nat} (hfree : s.table.lookup x = none) (n : Node) (expected : Ty) :
    ∀ m ∈ (Task.expr n expected s).moments cfg schedule k, m.writes cfg schedule x d = false := by
  intro m hm
  obtain ⟨n', _, s', hm, -, htouches⟩ :=
    moments_expr (touches_stable s) hereditary_true k expected trivial (.refl s) m hm
  have hfixed : s'.table.isFixed x = false := by
    unfold Symbols.isFixed
    rw [htouches.free hfree]
  simp [Moment.writes, Moment.assigns, Moment.initializes, hm, Task.state, hfixed]

/-! ## No more than was due -/

variable (cfg schedule x d) in
/-- From one state to another through tasks, the variable is written no more often than was due. -/
structure Accounts (k : Nat) (s : State) (ts : List Task) (s' : State) : Prop where
  sound : s'.table.Sound
  contexts : s'.table.contexts = s.table.contexts
  writes : writesIn cfg schedule x d k ts + s'.table.due d x ≤ s.table.due d x

/-- The tasks of a level write no more than is due, in the scope with number `d` and inside it. -/
def TasksAccount (cfg : Config) (schedule : Schedule) (x : Ident) (d : Nat) (P : Node → Prop)
    (k : Nat) : Prop :=
  ∀ t : Task, t.Proper (belowAt cfg schedule k) P → t.state.table.Sound → d ≤ t.state.table.depth →
    Accounts cfg schedule x d k t.state [t] (t.after (belowAt cfg schedule k))

/-- Nor does what statements do between their tasks. -/
theorem Moves.accounts {k : Nat} (hk : TasksAccount cfg schedule x d P k)
    (h : Moves (belowAt cfg schedule k) P s ts s') (hs : s.table.Sound) (hd : d ≤ s.table.depth) :
    Accounts cfg schedule x d k s ts s' := by
  obtain ⟨hsame, -⟩ := h.sameOpen hs
  refine ⟨hsame.sound, hsame.contexts, ?_⟩
  clear hsame
  induction h with
  | notes notes => simp [writesIn, notes.table]
  | settle settles evolves adds => simpa [writesIn] using settles.due d x
  | bind name v loc hv =>
    simpa [writesIn] using Symbols.due_insert (hv.imp id fun hv => by
      simp [Entry.settled, Entry.binding, hv]) d x
  | adopt h free sound closed run _ =>
    simpa [writesIn, State.adopt] using Symbols.due_insert (.inr rfl) d x
  | task proper => exact (hk _ proper hs hd).writes
  | @scope s s₁ ts context inner ih =>
    obtain ⟨hinner, -⟩ := inner.sameOpen (hs.enter context)
    have hdepth : s₁.table.depth = s.table.depth + 1 := Table.depth_of_contexts hinner.contexts
    calc writesIn cfg schedule x d k ts + Symbols.due s₁.table.exit d x
      _ ≤ writesIn cfg schedule x d k ts + s₁.table.due d x :=
        Nat.add_le_add_left (Symbols.due_exit hinner.sound (by omega) x) _
      _ ≤ Symbols.due (s.table.enter context) d x := ih (hs.enter context) (Nat.le_succ_of_le hd)
      _ = s.table.due d x := Symbols.due_enter hd context x
  | returning result inner ih => exact ih hs hd
  | body inner ih => exact ih hs hd
  | append first rest ih ih' =>
    obtain ⟨hfirst, -⟩ := first.sameOpen hs
    have hdepth := Table.depth_of_contexts hfirst.contexts
    have hwrites := ih hs hd
    have hwrites' := ih' hfirst.sound (hdepth ▸ hd)
    rw [writesIn_append]
    omega

/-! ## Assignments -/

/-- An immutable variable that is no reference takes an assignment by `=` as long as it has no value,
and no other. -/
theorem assignable_of_isFixed {t : Symbols} (h : t.isFixed x = true) :
    ∃ e v, t.lookup x = some e ∧ e.kind = .var v ∧ v.mutable = false ∧ ∀ op, t.assignable op x v
      = if !v.initialized && op == "=" && v.storage == .automatic then .ok v.type
        else .error (.constMutation x) := by
  unfold Symbols.isFixed at h
  split at h
  · rename_i name static v loc hlookup
    rw [Bool.and_eq_true, Bool.not_eq_true'] at h
    refine ⟨_, v, hlookup, rfl, h.1, fun op => ?_⟩
    unfold Symbols.assignable
    rw [h.1]
    split at h <;> simp_all
  · cases h

theorem assignName_fixed {rule} {h target : Head} {value}
    (hfixed : s.table.isFixed target.name = true)
    (hok : (assignName rule h target value s).1.2 = true) :
    h.op = "=" ∧ ∃ e v, s.table.lookup target.name = some e ∧ e.kind = .var v ∧ v.mutable = false ∧
      v.initialized = false ∧ v.storage = .automatic := by
  obtain ⟨e, v, hlookup, hv, hmutable, hassignable⟩ := assignable_of_isFixed hfixed
  unfold assignName at hok
  rw [bind_apply, symbols_apply] at hok
  simp only [hlookup, hv, hassignable] at hok
  by_cases hopen : (!v.initialized && h.op == "=" && v.storage == .automatic) = true
  · simp only [Bool.and_eq_true, Bool.not_eq_true', beq_iff_eq] at hopen
    exact ⟨hopen.1.2, e, v, hlookup, hv, hmutable, hopen.1.1, hopen.2⟩
  · rw [if_neg hopen] at hok
    cases hok

/-- An assignment to an immutable variable that is no reference is accepted only if it is by `=` and
the variable has no value yet. -/
theorem assign_fixed {rule} {h : Head} {cs fs b} (hx : (Node.mk h cs fs b).assigned? = some x)
    (hfixed : s.table.isFixed x = true) (hok : (assign rule h cs s).1.2 = true) :
    h.op = "=" ∧ ∃ e v, s.table.lookup x = some e ∧ e.kind = .var v ∧ v.mutable = false ∧
      v.initialized = false ∧ v.storage = .automatic := by
  rcases cs with _ | ⟨target, _ | ⟨value, rest⟩⟩
  · cases hx
  · cases hx
  dsimp only [Node.assigned?] at hx
  split at hx
  · rename_i hident
    obtain rfl : target.head.name = x := Option.some.inj hx
    simp only [assign, if_pos hident.2] at hok
    exact assignName_fixed hfixed hok
  · cases hx

theorem kind_of_assigned {n : Node} (hx : n.assigned? = some x) : n.kind? = some .assign := by
  unfold Node.assigned? at hx
  split at hx
  · split at hx
    · rename_i hk
      exact congrArg some hk.1
    · cases hx
  · cases hx

/-- A mark settles the variable that a name stands for. -/
theorem due_marked (hhome : s.table.home? x = some d) : (s.marked x).table.due d x = 0 := by
  have hname : ∀ e : SymbolEntry, e.withValue.name = e.name := fun e =>
    (Entry.Touched.matching.name (.inr rfl : e.Touched e.withValue)).symm
  have hentry : (s.marked x).table.entryAt d x = (s.table.entryAt d x).map Entry.withValue :=
    Table.entryAt_modify hname hhome
  obtain ⟨e, he⟩ := Table.entryAt_of_home hhome
  rw [he] at hentry
  exact Symbols.due_of_entryAt hentry e.settled_withValue

/-- When an assignment writes a variable, nothing in its value does; the variable was due before and
is not any more. -/
theorem assigns_settles (schedule : Schedule) {k : Nat} {t : Task} (hseparate : t.node.Separate x)
    (hassigns : (⟨k + 1, t⟩ : Moment).assigns cfg x d = true) :
    writesIn cfg schedule x d k (t.parts cfg (belowAt cfg schedule k)) = 0 ∧
      t.state.table.due d x = 1 ∧ (t.after (belowAt cfg schedule (k + 1))).table.due d x = 0 := by
  simp only [Moment.assigns, Bool.and_eq_true, beq_iff_eq] at hassigns
  obtain ⟨⟨⟨hx, hhome⟩, hfixed⟩, haccepted⟩ := hassigns
  have hk := kind_of_assigned hx
  obtain ⟨hparts, hafter, hok⟩ := Task.of_assign cfg schedule k hk
  rw [hok] at haccepted
  rw [hparts, hafter]
  generalize t.node = n at *
  generalize t.state = s at *
  cases n with
  | absent => cases hk
  | mk h cs fs b =>
    have haccepted : (assign (exprAt cfg k) h cs s).1.2 = true := haccepted
    obtain ⟨hop, e, v, hlookup, hv, hmutable, hinitialized, hstorage⟩ :=
      assign_fixed hx hfixed haccepted
    have hcs : ∀ c ∈ cs, c.Every fun m => m.assigned? ≠ some x := hseparate (.inl ⟨hx, hop⟩)
    obtain ⟨s₁, hthrough, hstate⟩ :=
      assign_through (exprAt cfg k) (hereditary_every _).inherited (Option.some.inj hk) hcs
        (fun hlacks => absurd (Node.length_of_assigned hx) (Nat.not_le.2 hlacks)) fs b s
    obtain ⟨htouches, htasks⟩ := hthrough.stable (touches_stable s)
      (fun n expected => exprAt_relates (touches_stable s) (trivial_rewriting _) cfg k n expected)
      (.refl s)
    refine ⟨writesIn_eq_zero fun t ht => ?_, ?_, ?_⟩
    · obtain ⟨n, expected, s', rfl, hn, -⟩ := htasks t ht
      exact moments_unassigned hn expected s'
    · refine Symbols.due_of_open (e := e) ?_ ?_
      · rw [← Table.lookup_of_home hhome, hlookup]
      · simp [Entry.settled, hv, hmutable, hinitialized, hstorage]
    · change (assign (exprAt cfg k) h cs s).2.table.due d x = 0
      rw [hstate, haccepted, if_pos rfl, hx]
      refine due_marked ?_
      rw [← Table.Rel.home? Entry.Touched.matching htouches.table, hhome]

theorem kind_of_assigns {m : Moment} (h : m.assigns cfg x d = true) :
    m.task.node.kind? = some .assign := by
  simp only [Moment.assigns, Bool.and_eq_true, beq_iff_eq] at h
  exact kind_of_assigned h.1.1.1

/-- An assignment is no declaration. -/
theorem kind_of_initializes {m : Moment} (h : m.initializes cfg schedule x d = true) :
    m.task.node.kind? ≠ some .assign := by
  unfold Moment.initializes at h
  split at h
  · rename_i run head init rest fs b s htask
    simp only [Bool.and_eq_true] at h
    intro hassign
    rw [htask] at hassign
    have hk : head.kind = .assign := Option.some.inj hassign
    rw [hk] at h
    cases h.1.1.1.1
  · cases h

/-! ## Declarations -/

/-- The state in which the initializer of a variable with a declared type is analysed. -/
def variableStart (h : Head) (storage : Storage) (s : State) : State :=
  let checked := (checkType h.loc h.type s).2
  { checked with table := checked.table.insert (.binding h.name
      ⟨h.type, h.mutable && storage != .constant, storage, storage == .static⟩ h.loc) }

section Variable

variable {rule : ExprRule} {h : Head} {storage : Storage} {init : Node} {rest : List Node} {k : Nat}

/-- The initializer is all that a declaration of a variable leaves to the level below. -/
theorem variableParts_free (hfree : s.table.lookup h.name = none) :
    variableParts h storage (init :: rest) s =
      if h.type.isUnknown then [.expr init .unknown s]
      else [.expr init h.type (variableStart h storage s)] := by
  unfold variableParts Parts.following Parts.andThen
  simp only [redefined_free hfree, Bool.false_eq_true, if_false]
  split <;> rfl

/-- A variable without a declared type is bound if its initializer is accepted, and one with a
declared type is bound once more after it; either way it has a value. -/
theorem variableDecl_free (hfree : s.table.lookup h.name = none) :
    (variableDecl rule h storage (init :: rest) s).2 =
      if h.type.isUnknown then
        (rule init .unknown s).1.2.elim (rule init .unknown s).2 fun type =>
          { (rule init .unknown s).2 with
            table := (rule init .unknown s).2.table.insert (.binding h.name
              ⟨type, h.mutable && storage != .constant, storage, true⟩ h.loc) }
      else
        let ended := (exprOf rule h.type init (variableStart h storage s)).2
        { ended with table := ended.table.insert (.binding h.name
          ⟨h.type, h.mutable && storage != .constant, storage, true⟩ h.loc) } := by
  unfold variableDecl
  rw [bind_apply, redefined_free hfree]
  simp only [Bool.false_eq_true, if_false]
  split
  · rw [bind_apply]
    cases (rule init .unknown s).1.2 <;> rfl
  · rfl

/-- A declaration of a variable is analysed by the rule for its storage. -/
theorem stmtAt_variable (cfg : Config) (schedule : Schedule) (hk : h.kind.isVariable = true)
    (k : Nat) (run : Option ModuleRun) (cs : List Node) (fs : List (Component Node)) (b : Node)
    (s : State) :
    ∃ storage, (storage = .automatic → h.kind = .varDef) ∧
      stmtParts cfg (belowAt cfg schedule k) (.mk h cs fs b) = variableParts h storage cs ∧
      (stmtAt cfg schedule (k + 1) run (.mk h cs fs b) s).2
        = (variableDecl (exprAt cfg k) h storage cs s).2 := by
  have hstep : stmtAt cfg schedule (k + 1) run (.mk h cs fs b)
      = stmtStep cfg (belowAt cfg schedule k) run (.mk h cs fs b) := rfl
  rw [hstep]
  unfold stmtStep stmtParts
  unfold Kind.isVariable at hk
  split at hk
  · rename_i hkind
    simp only [hkind]
    exact ⟨.automatic, fun _ => trivial, rfl, rfl⟩
  · rename_i hkind
    simp only [hkind]
    exact ⟨.static, nofun, rfl, rfl⟩
  · rename_i hkind
    simp only [hkind]
    exact ⟨.constant, nofun, rfl, rfl⟩
  · cases hk

theorem due_bound {t : Symbols} {name} {v : Variable} {loc} (hdepth : t.depth = d)
    (hv : (v.mutable || v.initialized || v.storage != .automatic) = true) :
    Symbols.due (t.insert (.binding name v loc)) d name = 0 := by
  refine Symbols.due_of_entryAt (e := .binding name v loc) ?_ hv
  rw [Table.entryAt_insert, if_pos ⟨hdepth, rfl⟩]

theorem State.Touches.depth_eq (ht : s.Touches s') : s'.table.depth = s.table.depth :=
  (Table.depth_of_contexts (Table.Rel.contexts ht.table)).symm

theorem variableStart_depth (h : Head) (storage : Storage) (s : State) :
    (variableStart h storage s).table.depth = s.table.depth := by
  rw [← (checkType_quiet h.loc h.type).table s]
  exact Table.depth_of_contexts (Table.contexts_insert _ _)

/-- Nothing in the initializer of a variable writes it. -/
theorem initializer_writes
    (hk : TasksAccount cfg schedule h.name s.table.depth (Node.Every (Node.Separate h.name)) k)
    {fs b} (hn : (Node.mk h (init :: rest) fs b).Every (Node.Separate h.name)) (hs : s.table.Sound)
    (hfree : s.table.lookup h.name = none) (hstorage : storage = .automatic → h.kind = .varDef) :
    writesIn cfg schedule h.name s.table.depth k
      (variableParts h storage (init :: rest) s) = 0 := by
  obtain ⟨hseparate, hcs, -⟩ := Node.every_mk.1 hn
  rw [variableParts_free hfree]
  split
  · exact writesIn_eq_zero (List.forall_mem_singleton.2 (moments_free hfree init .unknown))
  · rename_i htype
    by_cases hopen : storage = .automatic ∧ h.mutable = false
    · have hinit := hseparate (.inr ⟨congrArg some (hstorage hopen.1), rfl, hopen.2,
        Bool.not_eq_true _ ▸ htype⟩) init (.head _)
      exact writesIn_eq_zero (List.forall_mem_singleton.2 (moments_unassigned hinit h.type _))
    · -- the variable is settled before its initializer is analysed
      have hchecked := (checkType_quiet h.loc h.type).table s
      have hstart : (variableStart h storage s).table.Sound :=
        Symbols.Sound.bind (hchecked ▸ hs) _ _ _
      have hdue : (variableStart h storage s).table.due s.table.depth h.name = 0 := by
        refine due_bound (by rw [hchecked]) ?_
        cases storage <;> simp_all
      have haccount := (hk (.expr init h.type (variableStart h storage s)) (hcs init (.head _))
        hstart (Nat.le_of_eq (variableStart_depth h storage s).symm)).writes
      have hstate : (Task.expr init h.type (variableStart h storage s)).state
        = variableStart h storage s := rfl
      rw [hstate, hdue] at haccount
      omega

/-- A variable that is declared with an initializer has a value afterwards, if it is there. -/
theorem variableDecl_due (hfree : s.table.lookup h.name = none)
    (hbound : ((variableDecl (exprAt cfg k) h storage (init :: rest) s).2.table.entryAt
      s.table.depth h.name).isSome = true) :
    (variableDecl (exprAt cfg k) h storage (init :: rest) s).2.table.due s.table.depth h.name
      = 0 := by
  rw [variableDecl_free hfree] at hbound ⊢
  split
  · rename_i htype
    rw [if_pos htype] at hbound
    have htouches := exprAt_touches cfg k init .unknown s
    cases hresult : (exprAt cfg k init .unknown s).1.2 with
    | none =>
      rw [hresult, Option.elim_none, Table.entryAt_of_free (htouches.free hfree)] at hbound
      cases hbound
    | some type => exact due_bound htouches.depth_eq (by simp)
  · have htouches := touches_of_ensures (fun s => exprOf_relates (touches_stable s) (trivial_rewriting _)
      (exprAt_relates (touches_stable s) (trivial_rewriting _) cfg k) h.type init)
      (variableStart h storage s)
    exact due_bound (htouches.depth_eq.trans (variableStart_depth h storage s)) (by simp)

/-- When a variable is declared with an initializer, nothing in that writes it; the variable was due
before and is not any more. -/
theorem initializes_settles {t : Task}
    (hk : TasksAccount cfg schedule x d (Node.Every (Node.Separate x)) k)
    (ht : t.Proper (belowAt cfg schedule (k + 1)) (Node.Every (Node.Separate x)))
    (hs : t.state.table.Sound)
    (hinit : (⟨k + 1, t⟩ : Moment).initializes cfg schedule x d = true) :
    writesIn cfg schedule x d k (t.parts cfg (belowAt cfg schedule k)) = 0 ∧
      t.state.table.due d x = 1 ∧ (t.after (belowAt cfg schedule (k + 1))).table.due d x = 0 := by
  unfold Moment.initializes at hinit
  split at hinit
  · rename_i run h init rest fs b s htask
    obtain rfl : t = .stmt run (.mk h (init :: rest) fs b) s := htask
    simp only [Bool.and_eq_true, beq_iff_eq, Option.isNone_iff_eq_none] at hinit
    obtain ⟨⟨⟨⟨hvariable, rfl⟩, rfl⟩, hfree⟩, hbound⟩ := hinit
    obtain ⟨storage, hstorage, hparts, hafter⟩ := stmtAt_variable cfg schedule
      hvariable k run (init :: rest) fs b s
    rw [hafter] at hbound
    refine ⟨?_, Symbols.due_of_free hfree, ?_⟩
    · have htasks : Task.parts cfg (belowAt cfg schedule k)
          (.stmt run (.mk h (init :: rest) fs b) s) = variableParts h storage (init :: rest) s :=
        congrFun hparts s
      rw [htasks]
      exact initializer_writes hk ht.1 hs hfree hstorage
    · change (stmtAt cfg schedule (k + 1) run _ s).2.table.due _ _ = 0
      rw [hafter]
      exact variableDecl_due hfree hbound
  · cases hinit

end Variable

/-! ## Every level -/

theorem refuse_table (loc : Location) (s : State) : (refuse cfg loc s).2.table = s.table := by
  unfold refuse
  rw [bind_apply, get_apply]
  cases s.depthReported <;> rfl

/-- Nothing is written with no levels left. -/
theorem writes_zero (t : Task) : (⟨0, t⟩ : Moment).writes cfg schedule x d = false := by
  refine Bool.or_eq_false_iff.2 ⟨Bool.and_false _, Bool.eq_false_iff.2 fun hinit => ?_⟩
  unfold Moment.initializes at hinit
  split at hinit
  · rename_i run h init rest fs b s htask
    simp only [Bool.and_eq_true, Option.isNone_iff_eq_none] at hinit
    obtain ⟨⟨-, hfree⟩, hbound⟩ := hinit
    have htable : (stmtAt cfg schedule 0 run (.mk h (init :: rest) fs b) s).2.table = s.table :=
      refuse_table _ s
    rw [htable, Table.entryAt_of_free hfree] at hbound
    cases hbound
  · cases hinit

/-- What a task leaves to the level below and what it does itself afterwards. -/
theorem parts_account {k : Nat} {t : Task} (hk : TasksAccount cfg schedule x d P k)
    (hP : Hereditary P) (ht : t.Proper (belowAt cfg schedule (k + 1)) P)
    (hs : t.state.table.Sound) (hd : d ≤ t.state.table.depth) :
    writesIn cfg schedule x d k (t.parts cfg (belowAt cfg schedule k))
      + (t.after (belowAt cfg schedule (k + 1))).table.due d x ≤ t.state.table.due d x := by
  rcases t.parts_cases hP k ht with ⟨-, s₁, hthrough, hafter⟩ | ⟨-, hmoves⟩
  · have hmark : s₁.Touches (t.after (belowAt cfg schedule (k + 1))) := by
      rw [hafter]
      split
      · cases t.node.assigned? with
        | none => exact .refl s₁
        | some name => exact (touches_stable s₁).value name (.refl s₁)
      · exact .refl s₁
    have hinner := (Moves.accounts hk (Through.moves (belowAt cfg schedule k) hthrough) hs hd).writes
    exact Nat.le_trans (Nat.add_le_add_left (Symbols.due_touched hmark.table d x) _) hinner
  · exact (hmoves.accounts hk hs hd).writes

/-- With any number of levels left, tasks write no more than is due. -/
theorem tasks_account : ∀ k, TasksAccount cfg schedule x d (Node.Every (Node.Separate x)) k
  | 0, t, _, hs, _ => by
    have htable : (t.after (belowAt cfg schedule 0)).table = t.state.table := by
      cases t <;> exact refuse_table _ _
    refine ⟨htable ▸ hs, by rw [htable], ?_⟩
    have hwrites : writesIn cfg schedule x d 0 [t] = 0 :=
      writesIn_eq_zero (List.forall_mem_singleton.2 (List.forall_mem_singleton.2 (writes_zero t)))
    exact Nat.le_of_eq (by rw [hwrites, htable, Nat.zero_add])
  | k + 1, t, ht, hs, hd => by
    have hk : TasksAccount cfg schedule x d (Node.Every (Node.Separate x)) k := tasks_account k
    have hparts := parts_account hk (hereditary_every _) ht hs hd
    have hsame := t.after_sameOpen ht hs
    refine ⟨hsame.sound, hsame.contexts, ?_⟩
    rw [writesIn_succ]
    split
    · rename_i hwrites
      rcases Bool.or_eq_true_iff.1 hwrites with hassigns | hinit
      · have hseparate : t.node.Separate x := ht.node.self fun _ => List.forall_mem_nil _
        obtain ⟨hvalue, hbefore, hdone⟩ := assigns_settles schedule hseparate hassigns
        omega
      · obtain ⟨hvalue, hbefore, hdone⟩ := initializes_settles hk ht hs hinit
        omega
    · omega

/-! ## Paths -/

section Path

variable {rule : ExprRule} {path : List Ident} {e : SymbolEntry} {v : Variable}

theorem store_immutable {p : Place} (hp : p.writable = false) (h : Head) (value : Node)
    (s : State) : (store rule h (some p) value s).1.2 = false := by
  simp only [store, hp, Bool.false_eq_true, if_false]
  rfl

theorem place_of_path (rule : ExprRule) {target : Node} (hpath : target.kind? = some .path)
    (hchain : target.chain? = some ⟨path, none⟩) (he : s.table.resolve path = some e)
    (hv : e.kind = .var v) :
    (place rule target s).1.2 = some ⟨path.getLastD .missing, v.type, v.mutable, false⟩ := by
  cases target with
  | absent => cases hpath
  | mk h cs fs b =>
    have hk : h.kind = .path := Option.some.inj hpath
    unfold place
    simp only [hk, hchain]
    rw [bind_apply, symbols_apply, he]
    simp only [entryPlace, hv]
    rfl

theorem moduleVariable_rejected {n tail : Node} (hk : tail.kind? = some .assign)
    (hmutable : v.mutable = false) :
    (moduleVariable rule n ⟨path, some tail⟩ e v s).1.2 = none := by
  rcases tail with _ | ⟨h, _ | ⟨target, _ | ⟨value, more⟩⟩, fs, b⟩
  · cases hk
  · rfl
  · rfl
  · have hkind : h.kind = .assign := Option.some.inj hk
    simp only [moduleVariable, hkind, if_true]
    rw [bind_apply, store_immutable hmutable]
    rfl

/-- An immutable variable is never written by a path that leads to it. -/
theorem path_rejected {k : Nat} {n : Node} (hn : n.AssignsPath s.table path)
    (he : s.table.resolve path = some e) (hv : e.kind = .var v) (hmutable : v.mutable = false)
    (expected : Ty) : (exprAt cfg k n expected s).1.2 = none := by
  cases k with
  | zero => rfl
  | succ k =>
    change (exprStep (exprAt cfg k) expected n s).1.2 = none
    cases hn with
    | @target h target value rest fs b hk hpath hchain =>
      have hplace := place_of_path (exprAt cfg k) hpath hchain he hv
      have hident : ¬target.kind? = some .ident := by simp [hpath]
      have hok : (assign (exprAt cfg k) h (target :: value :: rest) s).1.2 = false := by
        simp only [assign, if_neg hident]
        rw [bind_apply, bind_apply, hplace]
        exact store_immutable hmutable h value _
      simp only [exprStep, hk]
      rw [bind_apply, hok]
      rfl
    | @chain _ tail hchain hk hstart =>
      have haccess : exprStep (exprAt cfg k) expected n = access (exprAt cfg k) n := by
        rcases Node.chain?_eq_some_iff.1 hchain with _ | ⟨hkind⟩ | ⟨hkind⟩
        · rcases hkind with hkind | hkind <;> simp [Node.kind?, hkind] at hk
        · rcases hkind with hkind | hkind <;> simp only [exprStep, hkind]
      have hstart : ¬(n.kind? = some .dot ∧ s.table.startsAtValue n = true) := fun hn => by
        simp [hstart hn.1] at hn
      rw [haccess, access, bind_apply, symbols_apply]
      simp only [if_neg hstart, hchain, he, named, hv]
      exact moduleVariable_rejected hk hmutable

end Path

/-! ## Bodies -/

theorem two_le_countP {α : Type} {p : α → Bool} {l : List α} {a b : α} (ha : a ∈ l) (hb : b ∈ l)
    (hne : a ≠ b) (hpa : p a = true) (hpb : p b = true) : 2 ≤ l.countP p := by
  obtain ⟨l₁, l₂, rfl⟩ := List.append_of_mem ha
  have hmem : b ∈ l₁ ++ l₂ := by
    rcases List.mem_append.1 hb with hb | hb
    · exact List.mem_append_left _ hb
    · exact List.mem_append_right _ ((List.mem_cons.1 hb).resolve_left hne.symm)
  have hpos : 0 < (l₁ ++ l₂).countP p := List.countP_pos_iff.2 ⟨b, hmem, hpb⟩
  rw [List.countP_append] at hpos
  rw [List.countP_append, List.countP_cons, if_pos hpa]
  omega

variable {tree : Node} {l k : Nat} {ns nodes : List Node}

/-- An assignment that writes a variable is by `=` and finds it without a value. -/
theorem plain_of_assigns {m : Moment} (h : m.assigns cfg x d = true) :
    m.task.node.head.op = "=" ∧ ∃ e v, m.task.state.table.lookup x = some e ∧ e.kind = .var v ∧
      v.initialized = false ∧ v.storage = .automatic := by
  obtain ⟨k, t⟩ := m
  have hk := kind_of_assigns h
  simp only [Moment.assigns, Bool.and_eq_true, beq_iff_eq] at h
  obtain ⟨⟨⟨hx, -⟩, hfixed⟩, haccepted⟩ := h
  dsimp only at *
  cases k with
  | zero => cases haccepted
  | succ k =>
    rw [(Task.of_assign cfg .written k hk).2.2] at haccepted
    generalize t.node = n at *
    cases n with
    | absent => cases hk
    | mk h cs fs b =>
      obtain ⟨hop, e, v, hlookup, hv, -, hinitialized, hstorage⟩ := assign_fixed hx hfixed haccepted
      exact ⟨hop, e, v, hlookup, hv, hinitialized, hstorage⟩

/-- The statements of a body write no more than is due. -/
theorem body_accounts (hv : Visits cfg schedule tree l ns (.body k nodes) s)
    (hx : ∀ n ∈ nodes, n.Every (Node.Separate x)) :
    (bodyMoments cfg schedule k nodes s).countP (·.writes cfg schedule x s.table.depth)
      ≤ s.table.due s.table.depth x := by
  have hmoves := body_moving cfg (belowAt cfg schedule k) hx s
  have haccounts := (hmoves.accounts (tasks_account k) hv.anchored.sound (Nat.le_refl _)).writes
  exact Nat.le_trans (Nat.le_add_right _ _) haccounts

/-- An immutable variable that is no reference is written at most once. In every run, the body of a
scope writes such a variable of the scope at most once, be it by an initializer or by an assignment
that is accepted, and not at all if it has a value to begin with. If it is declared with an
initializer, no assignment to it is accepted, and otherwise only one by `=` that finds it without a
value. By a path that leads to it nothing is assigned to it at all. The condition is that no
assignment to the variable stands in the value of another one by `=`, or in the initializer of the
variable if that is declared with its type. -/
theorem immutable_written_once (hv : Visits cfg schedule tree l ns (.body k nodes) s)
    (hx : ∀ n ∈ nodes, n.Every (Node.Separate x)) :
    (bodyMoments cfg schedule k nodes s).countP (·.writes cfg schedule x s.table.depth) ≤ 1 ∧
    (∀ e, s.table.entryAt s.table.depth x = some e → e.settled = true →
      ∀ m ∈ bodyMoments cfg schedule k nodes s, ¬m.assigns cfg x s.table.depth) ∧
    ((∃ m ∈ bodyMoments cfg schedule k nodes s, m.initializes cfg schedule x s.table.depth) →
      ∀ m ∈ bodyMoments cfg schedule k nodes s, ¬m.assigns cfg x s.table.depth) ∧
    (∀ m ∈ bodyMoments cfg schedule k nodes s, m.assigns cfg x s.table.depth →
      m.task.node.head.op = "=" ∧ ∃ e v, m.task.state.table.lookup x = some e ∧ e.kind = .var v ∧
        v.initialized = false ∧ v.storage = .automatic) ∧
    ∀ m ∈ bodyMoments cfg schedule k nodes s, ∀ path e v,
      m.task.node.AssignsPath m.task.state.table path → m.task.state.table.resolve path = some e →
      e.kind = .var v → v.mutable = false → m.task.accepted cfg m.levels = false := by
  have hcount := body_accounts hv hx
  refine ⟨Nat.le_trans hcount (Symbols.due_le_one _ _ _), ?_, ?_, ?_, ?_⟩
  · intro e he hsettled m hm hassigns
    rw [Symbols.due_of_entryAt he hsettled, Nat.le_zero, List.countP_eq_zero] at hcount
    exact hcount m hm (Bool.or_eq_true_iff.2 (.inl hassigns))
  · rintro ⟨m, hm, hinit⟩ m' hm' hassigns
    have hne : m ≠ m' := by
      rintro rfl
      exact kind_of_initializes hinit (kind_of_assigns hassigns)
    have htwo := two_le_countP (p := Moment.writes cfg schedule x s.table.depth) hm hm' hne
      (Bool.or_eq_true_iff.2 (.inr hinit)) (Bool.or_eq_true_iff.2 (.inl hassigns))
    have hone := Nat.le_trans hcount (Symbols.due_le_one _ _ _)
    exact absurd (Nat.le_trans htwo hone) (by decide)
  · exact fun m _ hassigns => plain_of_assigns hassigns
  · intro m _ path e v hn he hkind hmutable
    rw [Task.accepted, path_rejected hn he hkind hmutable]
    rfl

/-- An assignment by `=` to a name. -/
def plainAssignment (x : String) (value : Node) : Node :=
  .ofChildren { kind := .assign, loc := {}, op := "=" } [.ident x, value]

/-- A variable is assigned to in a block, in one of the branches of a conditional and once more; the
first of the three is accepted. -/
theorem immutable_written_once_block :
    let unit : Node := .leaf { kind := .tuple, loc := {} }
    let block (ns : List Node) : Node := .ofChildren { kind := .block, loc := {} } ns
    let nodes : List Node := [.var "x" false .unit [], block [plainAssignment "x" unit],
      .ofChildren { kind := .ifThen, loc := {} }
        [.leaf { kind := .bool, loc := {} }, block [plainAssignment "x" unit]],
      plainAssignment "x" unit]
    (bodyMoments {} .written 1000 nodes {}).countP (·.assigns {} (.name "x") 0) = 1 ∧
      (bodyMoments {} .written 1000 nodes {}).countP (·.writes {} .written (.name "x") 0) ≤ 1 := by
  intro unit block nodes
  have hv : Visits {} .written (.ofChildren { kind := .program, loc := {} } nodes) 1000 nodes
    (.body 1000 nodes) {} := .program rfl
  have hx : ∀ n ∈ nodes, n.Every (Node.Separate (.name "x")) := by decide +kernel
  exact ⟨by decide +kernel, (immutable_written_once hv hx).1⟩

/-- An assignment in the value of another one to the same variable, and one in the initializer of
the variable, are accepted although the variable is written again. -/
theorem immutable_written_twice :
    let unit : Node := .leaf { kind := .tuple, loc := {} }
    let nested : List Node :=
      [.var "x" false .unit [], plainAssignment "x" (plainAssignment "x" unit)]
    let inside : List Node := [.var "x" false .unit [plainAssignment "x" unit]]
    (bodyMoments {} .written 1000 nested {}).countP (·.assigns {} (.name "x") 0) = 2 ∧
      (finished {} .written 1000 nested).findings.length = 0 ∧
      (bodyMoments {} .written 1000 inside {}).countP (·.assigns {} (.name "x") 0) = 1 ∧
      (bodyMoments {} .written 1000 inside {}).countP
        (·.initializes {} .written (.name "x") 0) = 1 ∧
      (finished {} .written 1000 inside).findings.length = 0 := by
  decide +kernel

end Analysis

end TreeSema
