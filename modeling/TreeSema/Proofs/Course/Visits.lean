import TreeSema.Proofs.Accept.Rules
import TreeSema.Proofs.Course.Stmt

/-!
# No definition is lost

An analysis goes from statement to statement and from a statement to the bodies in it. `Visits`
follows it: it relates each body and each statement to the state in which the analysis gets there,
and to the module that it is part of. At each of these points, and after it, the definitions of the
open scopes have different names, so that closing a scope overwrites nothing. What is defined there
is an entry of the root scope of the finished table of the module, however deep in other statements
it was declared.

* `Visits.anchored`: what holds at every point of a run, by induction on how the run gets there.
* `definitions_persist`: every definition that was not reported is found in the finished table.
-/
namespace TreeSema

namespace Table

variable {M : Type}

/-- No name is that of static entries in two open scopes, and in none of them is it that of two. -/
def StaticOnce (t : Table M) : Prop :=
  (∀ s ∈ t.scopes, (s.persistent.map (·.name)).Nodup) ∧
    t.scopes.Pairwise fun inner outer =>
      ∀ e ∈ inner.persistent, ∀ d ∈ outer.persistent, e.name ≠ d.name

/-- Closing the innermost scope leaves every entry of the scope around it in its place. -/
def ClosesSafely : Table M → Prop
  | ⟨_, []⟩ => True
  | ⟨root, s :: rest⟩ => ∀ name e, (⟨root, rest⟩ : Table M).lookupHere name = some e →
    (⟨root, s :: rest⟩ : Table M).exit.lookupHere name = some e

theorem Apart.staticOnce {t : Table M} (h : t.Apart) : t.StaticOnce := by
  refine ⟨fun s hs => ?_, h.clear.imp fun {inner outer} hclear e he d hd hn => ?_⟩
  · have hnodup := (h.orderly s hs).nodup_names
    rw [Scope.names, List.map_append] at hnodup
    exact (List.nodup_append.1 hnodup).1
  · exact Scope.get?_eq_none_iff.1 (hclear e he) d (.inr hd) hn.symm

theorem Apart.closesSafely {t : Table M} (h : t.Apart) : t.ClosesSafely := by
  obtain ⟨root, _ | ⟨s, rest⟩⟩ := t
  · trivial
  · exact fun _ _ he => h.exit_keeps he

end Table

namespace Analysis

variable (cfg : Config) (schedule : Schedule)

/-! ## The points of a run -/

/-- What an analysis comes to: the statements of a body, a statement, with the run over its body if
it is a module that was analysed ahead, or an item of a block of external definitions. -/
inductive Point where
  | body (levels : Nat) (nodes : List Node)
  | statement (levels : Nat) (run : Option ModuleRun) (n : Node)
  | item (n : Node)

/-- The state after a point, if the analysis gets there in the state `s`. -/
def Point.after (s : State) : Point → State
  | .body levels nodes => (Analysis.body cfg (belowAt cfg schedule levels) nodes s).2
  | .statement levels run n => (stmtAt cfg schedule levels run n s).2
  | .item n => (externItems [n] s).2

/-- The state in which the analysis of the body of a module ends. -/
def finished (levels : Nat) (nodes : List Node) : State :=
  (body cfg (belowAt cfg schedule levels) nodes {}).2

/-- The state in which the analysis of the body of a function starts. -/
def functionStart (h : Head) (s : State) : State :=
  let declared := declareFunction h (functionFlags h .plain) s
  let entered : State := { declared.2 with table := declared.2.table.enter (functionContext h) }
  let bound := (bindFormals (declared.1.zip (h.params.map (·.loc))) entered).2
  { bound with returns := h.type :: bound.returns }

/-- The statements of the body of a loop, of which `n` is the last operand. -/
def loopNodes (n : Node) : List Node := if n.kind? = some .block then n.children else [n]

/-- A branch of a conditional: its statements, if it is a block. -/
def branchPoint (levels : Nat) (n : Node) : Point :=
  if n.kind? = some .block then .body levels n.children else .statement levels none n

/-- In the analysis of `tree` the given point is come to in the given state, as a part of the module
with the statements `ns`, which are analysed with `l` levels left. -/
inductive Visits (tree : Node) : (l : Nat) → (ns : List Node) → Point → State → Prop
  | program (hk : tree.kind? = some .program) :
    Visits tree cfg.depthLimit tree.children (.body cfg.depthLimit tree.children) {}
  | module {l k ns cs} {run : Option ModuleRun} {h : Head} {fs b} {s : State}
      (outer : Visits tree l ns (.statement (k + 1) run (.mk h cs fs b)) s)
      (hk : h.kind = .moduleDef) (hrun : run.isSome ∨ s.table.lookup h.name = none) :
    Visits tree k cs (.body k cs) {}
  | statement {l k ns nodes run n done rest s} (outer : Visits tree l ns (.body k nodes) s)
      (hslots : lookAhead cfg (belowAt cfg schedule k) nodes = done ++ (run, n) :: rest) :
    Visits tree l ns (.statement k run n) (statements (belowAt cfg schedule k) done s).2
  | item {l k ns run} {h : Head} {n done rest fs b s}
      (outer : Visits tree l ns (.statement (k + 1) run (.mk h (done ++ n :: rest) fs b)) s)
      (hk : h.kind = .externBlock) : Visits tree l ns (.item n) (externItems done s).2
  | function {l k ns cs run} {h : Head} {fs} {b : Node} {s : State}
      (outer : Visits tree l ns (.statement (k + 1) run (.mk h cs fs b)) s)
      (hk : h.kind = .funcDef) (hfree : s.table.lookup h.name = none) (hb : b.isAbsent = false) :
    Visits tree l ns (.body k b.children) (functionStart h s)
  | block {l k ns cs run} {h : Head} {fs b} {s : State} {safety}
      (outer : Visits tree l ns (.statement (k + 1) run (.mk h cs fs b)) s)
      (hk : h.kind = .block ∧ safety = .inherited ∨ h.kind = .unsafeBlock ∧ safety = .unsafely) :
    Visits tree l ns (.body k cs)
      { s with table := s.table.enter { s.table.context with safety } }
  | loop {l k ns skipped run} {h : Head} {n fs b} {s : State}
      (outer : Visits tree l ns (.statement (k + 1) run (.mk h (skipped ++ [n]) fs b)) s)
      (hk : h.kind = .loop) :
    Visits tree l ns (.body k (loopNodes n)) { s with table := s.table.enter (loopContext s) }
  | whileLoop {l k ns skipped run} {h : Head} {condition n fs b} {s s₁ : State}
      (outer : Visits tree l ns
        (.statement (k + 1) run (.mk h (condition :: (skipped ++ [n])) fs b)) s)
      (hk : h.kind = .whileLoop)
      (hs₁ : s₁ = (exprOf (exprAt cfg k) (.basic .bool) condition s).2) :
    Visits tree l ns (.body k (loopNodes n)) { s₁ with table := s₁.table.enter (loopContext s₁) }
  | branch {l k ns done rest run} {h : Head} {condition n fs b s} (outer : Visits tree l ns
        (.statement (k + 1) run (.mk h (condition :: (done ++ n :: rest)) fs b)) s)
      (hk : h.kind = .ifThen) :
    Visits tree l ns (branchPoint k n) (branches cfg (belowAt cfg schedule k) done
      (exprOf (exprAt cfg k) (.basic .bool) condition s).2).2

/-! ## Parts of a run -/

variable {cfg schedule}

section Parts

variable {below : Below} {h : Head} {k : Nat} {run : Option ModuleRun} {cs : List Node}
  {fs : List (Component Node)} {b : Node} {s : State}

theorem statements_append (ms : List (Option ModuleRun × Node)) :
    ∀ (ns : List (Option ModuleRun × Node)) (s : State),
      (statements below (ns ++ ms) s).2 = (statements below ms (statements below ns s).2).2
  | [], _ => rfl
  | (run, n) :: ns, s => statements_append ms ns (below.stmt run n s).2

theorem externItems_cons (n : Node) (ns : List Node) (s : State) :
    (externItems (n :: ns) s).2 = (externItems ns (externItems [n] s).2).2 := by
  cases n with
  | absent => rfl
  | mk h cs fs b =>
    simp only [externItems]
    cases h.kind <;> rfl

theorem externItems_append (ms : List Node) : ∀ (ns : List Node) (s : State),
    (externItems (ns ++ ms) s).2 = (externItems ms (externItems ns s).2).2
  | [], _ => rfl
  | n :: ns, s => by
    rw [List.cons_append, externItems_cons, externItems_append ms ns, ← externItems_cons]

theorem branches_append (ms : List Node) : ∀ (ns : List Node) (s : State),
    (branches cfg below (ns ++ ms) s).2 = (branches cfg below ms (branches cfg below ns s).2).2
  | [], _ => rfl
  | n :: ns, s => branches_append ms ns (branch cfg below n s).2

/-- The body of a loop is its last operand. -/
theorem loopBody_append (n : Node) (s : State) : ∀ skipped : List Node,
    (loopBody cfg below (skipped ++ [n]) s).2 = (loopBody cfg below [n] s).2
  | [] => rfl
  | [_] => rfl
  | _ :: m :: skipped => loopBody_append n s (m :: skipped)

theorem loopBody_state (n : Node) (s : State) : (loopBody cfg below [n] s).2 =
    let ended := (body cfg below (loopNodes n) { s with table := s.table.enter (loopContext s) }).2
    { ended with table := ended.table.exit } := by
  by_cases hk : n.kind? = some .block
  · simp only [loopBody, loopNodes, hk, if_true]
    rfl
  · simp only [loopBody, loopNodes, hk, if_false]
    rfl

theorem branch_state (n : Node) (s : State) :
    (branch cfg (belowAt cfg schedule k) n s).2 = (branchPoint k n).after cfg schedule s := by
  by_cases hk : n.kind? = some .block
  · simp only [branch, branchPoint, hk, if_true]
    rfl
  · simp only [branch, branchPoint, hk, if_false]
    rfl

theorem stmtAt_succ (n : Node) (s : State) : stmtAt cfg schedule (k + 1) run n s
    = stmtStep cfg (belowAt cfg schedule k) run n s := rfl

/-! What a statement does that has bodies in it. -/

theorem stmtAt_externBlock (hk : h.kind = .externBlock) :
    (stmtAt cfg schedule (k + 1) run (.mk h cs fs b) s).2 = (externItems cs s).2 := by
  simp only [stmtAt_succ, stmtStep, hk]
  rfl

theorem stmtAt_moduleDef (hk : h.kind = .moduleDef) :
    (stmtAt cfg schedule (k + 1) run (.mk h cs fs b) s).2 =
      (moduleDecl cfg (belowAt cfg schedule k) h run cs s).2 := by
  simp only [stmtAt_succ, stmtStep, hk]
  rfl

theorem stmtAt_block {safety}
    (hk : h.kind = .block ∧ safety = .inherited ∨ h.kind = .unsafeBlock ∧ safety = .unsafely) :
    (stmtAt cfg schedule (k + 1) run (.mk h cs fs b) s).2 =
      let ended := (body cfg (belowAt cfg schedule k) cs
        { s with table := s.table.enter { s.table.context with safety } }).2
      { ended with table := ended.table.exit } := by
  rcases hk with ⟨hk, rfl⟩ | ⟨hk, rfl⟩ <;> simp only [stmtAt_succ, stmtStep, hk] <;> rfl

theorem stmtAt_loop {skipped n} (hk : h.kind = .loop) :
    (stmtAt cfg schedule (k + 1) run (.mk h (skipped ++ [n]) fs b) s).2 =
      (loopBody cfg (belowAt cfg schedule k) (skipped ++ [n]) s).2 := by
  simp only [stmtAt_succ, stmtStep, hk]
  rw [bind_apply]
  cases skipped <;> simp [loop, hk, pure_apply]

theorem stmtAt_while {condition} (hk : h.kind = .whileLoop) :
    (stmtAt cfg schedule (k + 1) run (.mk h (condition :: cs) fs b) s).2 =
      (loopBody cfg (belowAt cfg schedule k) cs
        (exprOf (exprAt cfg k) (.basic .bool) condition s).2).2 := by
  simp only [stmtAt_succ, stmtStep, hk, loop, if_true]
  rfl

theorem stmtAt_if (hk : h.kind = .ifThen) :
    (stmtAt cfg schedule (k + 1) run (.mk h cs fs b) s).2 =
      (conditional cfg (belowAt cfg schedule k) h cs s).2 := by
  simp only [stmtAt_succ, stmtStep, hk]
  rfl

theorem stmtAt_funcDef (hk : h.kind = .funcDef) :
    (stmtAt cfg schedule (k + 1) run (.mk h cs fs b) s).2 =
      (function h .plain b (body cfg (belowAt cfg schedule k)) s).2 := by
  simp only [stmtAt_succ, stmtStep, hk]
  rfl

/-- A function with a body is declared, and its body is analysed in a scope of its own. -/
theorem stmtAt_function (hk : h.kind = .funcDef) (hfree : s.table.lookup h.name = none)
    (hb : b.isAbsent = false) : (stmtAt cfg schedule (k + 1) run (.mk h cs fs b) s).2 =
      let ended := (body cfg (belowAt cfg schedule k) b.children (functionStart h s)).2
      { ended with returns := ended.returns.tail, table := ended.table.exit } := by
  rw [stmtAt_funcDef hk]
  unfold function
  simp only [bind_apply, redefined_free hfree, hb, functionFlags_plain]
  rfl

end Parts

/-! ## What holds at every point -/

section Anchored

variable (cfg schedule)

variable {h : Head} {s₁ T : State} {k : Nat} {n : Node} {cs : List Node}

/-- Tables stay sound, whatever else is known of a run. -/
theorem trivial_carried :
    Carried cfg (fun _ => True) (fun _ => True) fun _ _ _ => True := by
  constructor <;> intros <;> trivial

theorem belowAt_sound (k : Nat) :
    (belowAt cfg schedule k).Carries (fun _ => True) (fun _ => True) fun _ _ _ => True :=
  belowAt_carries (trivial_carried cfg) schedule k

variable {s : State}

theorem body_sound (k : Nat) (nodes : List Node) (hs : s.table.Sound) :
    Ends (fun _ => True) s (body cfg (belowAt cfg schedule k) nodes) fun _ _ => True :=
  (body_ends (trivial_carried cfg) (belowAt_sound cfg schedule k) (fun _ _ => trivial)
    ⟨hs, trivial⟩).mono fun _ _ _ => trivial

/-- The table of a module that was analysed is sound and has no open scope. -/
theorem finished_sound (l : Nat) (ns : List Node) :
    (finished cfg schedule l ns).table.Sound ∧ (finished cfg schedule l ns).table.stack = [] :=
  have h := body_sound cfg schedule (s := {}) l ns .empty
  ⟨h.fit.sound, List.eq_nil_of_length_eq_zero h.leads.depth⟩

theorem statements_sound (k : Nat) {slots}
    (hahead : ∀ slot ∈ slots, AheadOf (belowAt cfg schedule k) slot) (hs : s.table.Sound) :
    Ends (fun _ => True) s (statements (belowAt cfg schedule k) slots) fun _ _ => True :=
  (statements_ends (trivial_carried cfg) (belowAt_sound cfg schedule k) (fun _ _ => trivial)
    hahead ⟨hs, trivial⟩).mono fun _ _ _ => trivial

theorem externItems_sound (ns : List Node) (hs : s.table.Sound) :
    Ends (fun _ => True) s (externItems ns) fun _ _ => True :=
  externItems_ends (trivial_carried {}) (fun _ _ => trivial) ⟨hs, trivial⟩

theorem condition_sound (k : Nat) (n : Node) (hs : s.table.Sound) :
    Ends (fun _ => True) s (exprOf (exprAt cfg k) (.basic .bool) n) fun _ _ => True :=
  (exprOf_ends (trivial_carried cfg) (belowAt_sound cfg .written k) _ trivial ⟨hs, trivial⟩).mono
    fun _ _ _ => trivial

theorem branches_sound (k : Nat) (ns : List Node) (hs : s.table.Sound) :
    Ends (fun _ => True) s (branches cfg (belowAt cfg schedule k) ns) fun _ _ => True :=
  (branches_ends (trivial_carried cfg) (belowAt_sound cfg schedule k) (fun _ _ => trivial)
    ⟨hs, trivial⟩).mono fun _ _ _ => trivial

/-- The body of a function starts with a sound table. -/
theorem functionStart_sound (hk : h.kind = .funcDef)
    (hfree : s.table.lookup h.name = none) (hs : s.table.Sound) :
    (functionStart h s).table.Sound := by
  obtain ⟨s₁, ht, hr⟩ := declareFunction_registers hfree hk (functionFlags h .plain)
  have hdeclared := hr.sound (hs.touched ht.table)
  exact (bindFormals_ends (trivial_carried {}) _ ⟨hdeclared.enter _, trivial⟩ rfl).fit.sound

/-- How the analysis got to a point, as far as the module around it is concerned: the table is sound
before and after, and what is defined or found after it is so in the end. -/
structure Anchored (l : Nat) (ns : List Node) (p : Point) (s : State) : Prop where
  sound : s.table.Sound
  ahead : ∀ k run n, p = .statement k run n → AheadOf (belowAt cfg schedule k) (run, n)
  later : (p.after cfg schedule s).Later (finished cfg schedule l ns)

variable {cfg schedule} {l : Nat} {ns : List Node} {p : Point}

/-- What comes after a point. -/
theorem Anchored.ends (h : Anchored cfg schedule l ns p s) :
    (p.after cfg schedule s).table.Sound ∧ s.Leads (p.after cfg schedule s) := by
  cases p with
  | body k nodes =>
    have hend := body_sound cfg schedule k nodes h.sound
    exact ⟨hend.fit.sound, hend.leads⟩
  | statement k run n =>
    have hend := (belowAt_sound cfg schedule k).stmt trivial (h.ahead k run n rfl)
      ⟨h.sound, trivial⟩
    exact ⟨hend.fit.sound, hend.leads⟩
  | item n =>
    have hend := externItems_sound [n] h.sound
    exact ⟨hend.fit.sound, hend.leads⟩

/-- Closing the scope of a body loses nothing that was defined in it. -/
theorem later_close (k : Nat) (nodes : List Node) (hs : s₁.table.Sound) (returns : List Ty) :
    (body cfg (belowAt cfg schedule k) nodes s₁).2.Later
      { (body cfg (belowAt cfg schedule k) nodes s₁).2 with
        returns, table := (body cfg (belowAt cfg schedule k) nodes s₁).2.table.exit } :=
  have h := State.later_exit (body_sound cfg schedule k nodes hs).fit.sound
  ⟨h.defines, h.findings⟩

/-- The statements after one lose nothing that it defined. -/
theorem later_statement {nodes run done rest}
    (hslots : lookAhead cfg (belowAt cfg schedule k) nodes = done ++ (run, n) :: rest)
    (hdone : (statements (belowAt cfg schedule k) done s).2.table.Sound) :
    (stmtAt cfg schedule k run n (statements (belowAt cfg schedule k) done s).2).2.Later
      (body cfg (belowAt cfg schedule k) nodes s).2 := by
  have hahead := lookAhead_aheadOf cfg (belowAt cfg schedule k) nodes
  rw [hslots, List.forall_mem_append] at hahead
  obtain ⟨hrun, hrest⟩ := List.forall_mem_cons.1 hahead.2
  have hbody : (body cfg (belowAt cfg schedule k) nodes s).2
      = (settleDeclared s.declared.length (statements (belowAt cfg schedule k) rest
        (stmtAt cfg schedule k run n (statements (belowAt cfg schedule k) done s).2).2).2).2 := by
    rw [body_state, hslots, statements_append]
    rfl
  have hturn := (belowAt_sound cfg schedule k).stmt trivial hrun ⟨hdone, trivial⟩
  have hlater := statements_sound cfg schedule k hrest hturn.fit.sound
  have hsettled := (touches_of_ensures (fun s' => settleDeclared_ensures (touches_framed s')
    s.declared.length) _).leads hlater.fit.sound
  rw [hbody]
  exact (hlater.leads.trans hsettled).toLater

/-- The items after one of a block of external definitions lose nothing that it defined. -/
theorem later_item {done rest} (hs : s.table.Sound) :
    (externItems [n] (externItems done s).2).2.Later (externItems (done ++ n :: rest) s).2 := by
  have hn := externItems_sound [n] (externItems_sound done hs).fit.sound
  rw [externItems_append, externItems_cons n rest]
  exact (externItems_sound rest hn.fit.sound).leads.toLater

/-- The branches after one lose nothing that it defined. -/
theorem later_branch {done rest} (hs₁ : s₁.table.Sound) :
    ((branchPoint k n).after cfg schedule (branches cfg (belowAt cfg schedule k) done s₁).2).Later
      (branches cfg (belowAt cfg schedule k) (done ++ n :: rest) s₁).2 := by
  have hdone := branches_sound cfg schedule k done hs₁
  have hn := branch_ends (trivial_carried cfg) (belowAt_sound cfg schedule k) (n := n) trivial
    hdone.fit
  have hrest := branches_sound cfg schedule k rest hn.fit.sound
  rw [branches_append, ← branch_state]
  exact hrest.leads.toLater

/-- The operands of a loop before its body are left alone, and its scope is closed in the end. -/
theorem later_loop {skipped : List Node} (hs₁ : s₁.table.Sound) :
    (body cfg (belowAt cfg schedule k) (loopNodes n)
      { s₁ with table := s₁.table.enter (loopContext s₁) }).2.Later
      (loopBody cfg (belowAt cfg schedule k) (skipped ++ [n]) s₁).2 := by
  rw [loopBody_append, loopBody_state]
  exact later_close k _ (hs₁.enter _) _

/-- What holds at every point of a run, by induction on how the run gets there. -/
theorem Visits.anchored {tree} (hv : Visits cfg schedule tree l ns p s) :
    Anchored cfg schedule l ns p s := by
  induction hv with
  | program hk => exact ⟨.empty, nofun, .refl _⟩
  | module outer hk hrun ih => exact ⟨.empty, nofun, .refl _⟩
  | @statement l k ns nodes run n done rest s outer hslots ih =>
    have hahead := lookAhead_aheadOf cfg (belowAt cfg schedule k) nodes
    rw [hslots, List.forall_mem_append] at hahead
    have hdone := statements_sound cfg schedule k hahead.1 ih.sound
    refine ⟨hdone.fit.sound, fun _ _ _ he => ?_, (later_statement hslots hdone.fit.sound).trans ih.later⟩
    cases he
    exact hahead.2 _ (.head _)
  | item outer hk ih =>
    have hlater := ih.later
    rw [Point.after, stmtAt_externBlock hk] at hlater
    exact ⟨(externItems_sound _ ih.sound).fit.sound, nofun, (later_item ih.sound).trans hlater⟩
  | function outer hk hfree hb ih =>
    have hstart := functionStart_sound hk hfree ih.sound
    have hlater := ih.later
    rw [Point.after, stmtAt_function hk hfree hb] at hlater
    exact ⟨hstart, nofun, (later_close _ _ hstart _).trans hlater⟩
  | block outer hk ih =>
    have hlater := ih.later
    rw [Point.after, stmtAt_block hk] at hlater
    exact ⟨ih.sound.enter _, nofun, (later_close _ _ (ih.sound.enter _) _).trans hlater⟩
  | loop outer hk ih =>
    have hlater := ih.later
    rw [Point.after, stmtAt_loop hk] at hlater
    exact ⟨ih.sound.enter _, nofun, (later_loop ih.sound).trans hlater⟩
  | @whileLoop l k ns skipped run h condition n fs b s s₁ outer hk hs₁ ih =>
    have hsound : s₁.table.Sound := hs₁ ▸ (condition_sound cfg k condition ih.sound).fit.sound
    have hlater := ih.later
    rw [Point.after, stmtAt_while hk, ← hs₁] at hlater
    exact ⟨hsound.enter _, nofun, (later_loop hsound).trans hlater⟩
  | @branch l k ns done rest run h condition n fs b s outer hk ih =>
    have hcondition := (condition_sound cfg k condition ih.sound).fit.sound
    have hlater := ih.later
    rw [Point.after, stmtAt_if hk] at hlater
    refine ⟨(branches_sound cfg schedule k done hcondition).fit.sound, fun _ _ _ he => ?_,
      (later_branch hcondition).trans hlater⟩
    unfold branchPoint at he
    split at he
    · cases he
    · cases he
      nofun

/-! ## What became of declarations -/

variable (cfg schedule) in
/-- What became of a declaration that was come to in the state `s`, in the finished table `T` of its
module: its name was bound already, which is among the findings `found`, or what it declares is an
entry of the root scope. For a module, that entry holds the finished table of its body. -/
inductive Delivered (k : Nat) (s : State) (found : List Finding) (T : Symbols) (h : Head)
    (cs : List Node) : Prop
  | reported (hbound : s.table.lookup h.name ≠ none) (hfound : ⟨h.loc, .redefined h.name⟩ ∈ found)
  | entry {e} (he : Introduces h e) (hroot : T.root.get? h.name = some e)
  | variant {d structs} (hk : h.kind = .variantDef)
      (hd : Encodes h.name ⟨.empty, []⟩ d structs)
      (hroot : T.root.get? h.name = some (.definition h.name (.variantDef d) h.loc))
      (hstructs : ∀ e ∈ structs,
        ⟨e.loc, .redefined e.name⟩ ∈ found ∨ T.root.get? e.name = some e)
  | module (hk : h.kind = .moduleDef) (hroot : T.root.get? h.name = some
      (.definition h.name (.moduleDef (some (.table (finished cfg schedule k cs).table))) h.loc))

/-- A definition of a module is an entry of the root scope of its finished table. -/
theorem root_get? (hT : T.table.Sound ∧ T.table.stack = []) (hlater : s.Later T)
    {e : SymbolEntry} (he : s.table.Defines e) : T.table.root.get? e.name = some e :=
  hT.1.apart.root_get? hT.2 (hlater.defines e he)

theorem Registers.delivered {s₂ : State} {found} (hr : Registers s₁ h s₂)
    (hT : T.table.Sound ∧ T.table.stack = []) (hlater : s₂.Later T) (hfound : s₂.findings <+: found)
    : Delivered cfg schedule k s found T.table h cs := by
  cases hr with
  | entry hfree he =>
    have hdefined := Table.defines_insert_self s₁.table he.static
    exact .entry he (he.name ▸ root_get? hT hlater hdefined)
  | variant hfree hk hd _ hstructs =>
    have hdefined := hstructs.leads.defines _ (Table.defines_insert_self s₁.table rfl)
    refine .variant hk hd (root_get? hT hlater hdefined) fun e he => ?_
    rcases hstructs.defines_or_reported (fun e he => (hd.regular he).1) he with he | he
    · exact .inr (root_get? hT hlater he)
    · exact .inl (hfound.subset he)

theorem Settles.delivered {s' : State}
    (hr : Settles s h s') (hs : s.table.Sound) (hT : T.table.Sound ∧ T.table.stack = [])
    (hlater : s'.Later T) : Delivered cfg schedule k s s'.findings T.table h cs := by
  cases hr with
  | taken hbound _ hreported => exact .reported hbound hreported
  | added hbefore hregisters hafter =>
    have hsound := hregisters.sound (hs.touched hbefore.table)
    exact hregisters.delivered hT ((hafter.leads hsound).toLater.trans hlater) hafter.findings

/-- A function is declared before anything else is done with it. -/
theorem function_later {b : Node} (flags : Attributes) {analyse : List Node → Analysis (List Node)}
    (ha : ∀ s₁, Fit (fun _ => True) s₁ → Ends (fun _ => True) s₁ (analyse b.children)
      fun _ cs' => List.Forall₂ (fun _ _ => True) b.children cs')
    (hk : h.kind = .funcDef) (hfree : s.table.lookup h.name = none) (hs : s.table.Sound) :
    (declareFunction h (functionFlags h flags) s).2.Later (function h flags b analyse s).2 := by
  obtain ⟨s₁, ht, hr⟩ := declareFunction_registers hfree hk (functionFlags h flags)
  have hrest := (functionRest_ends (trivial_carried {}) h (functionFlags h flags)
    (declareFunction h (functionFlags h flags) s).1 (fun _ _ => trivial) ha
    ⟨hr.sound (hs.touched ht.table), trivial⟩).leads.toLater
  have hnone : redefined h.name h.loc s = (false, s) := redefined_free hfree
  have hstate : function h flags b analyse s = (if b.isAbsent then pure b
      else if (functionFlags h flags).has .foreignFn then
        (do report h.loc (.externBody h.name); return b)
      else functionBody h (declareFunction h (functionFlags h flags) s).1 b analyse : Analysis Node)
        (declareFunction h (functionFlags h flags) s).2 := by
    unfold function
    rw [bind_apply, hnone]
    rfl
  rwa [hstate]

theorem function_delivered {b : Node}
    (flags : Attributes) {analyse : List Node → Analysis (List Node)}
    (ha : ∀ s₁, Fit (fun _ => True) s₁ → Ends (fun _ => True) s₁ (analyse b.children)
      fun _ cs' => List.Forall₂ (fun _ _ => True) b.children cs')
    (hk : h.kind = .funcDef) (hs : s.table.Sound) (hT : T.table.Sound ∧ T.table.stack = [])
    (hlater : (function h flags b analyse s).2.Later T) :
    Delivered cfg schedule k s (function h flags b analyse s).2.findings T.table h cs := by
  rcases redefined_run h.name h.loc s with ⟨hfree, -⟩ | ⟨e, hbound, hrun⟩
  · obtain ⟨s₁, ht, hr⟩ := declareFunction_registers hfree hk (functionFlags h flags)
    have hrest := function_later flags ha hk hfree hs
    exact hr.delivered hT (hrest.trans hlater) hrest.findings
  · have hstate : function h flags b analyse s
        = (b, { s with findings := s.findings ++ [⟨h.loc, .redefined h.name⟩] }) := by
      unfold function
      rw [bind_apply, hrun]
      rfl
    rw [hstate]
    exact .reported (by simp [hbound]) (by simp)

/-- A module is put into the table with the table that the analysis of its body ended with. -/
theorem module_delivered {run} (hk : h.kind = .moduleDef)
    (hrun : ∀ r, run = some r → r = ModuleRun.ofBody cfg (belowAt cfg schedule k) cs)
    (hT : T.table.Sound ∧ T.table.stack = [])
    (hlater : (moduleDecl cfg (belowAt cfg schedule k) h run cs s).2.Later T) :
    Delivered cfg schedule k s (moduleDecl cfg (belowAt cfg schedule k) h run cs s).2.findings
      T.table h cs := by
  rcases redefined_run h.name h.loc s with ⟨hfree, -⟩ | ⟨e, hbound, htaken⟩
  · rw [moduleDecl_adopts hrun hfree] at hlater
    have hdefined := Table.defines_insert_self s.table (e := .definition h.name
      (.moduleDef (some (.table (finished cfg schedule k cs).table))) h.loc) rfl
    exact .module hk (root_get? hT hlater hdefined)
  · rw [moduleDecl_taken htaken]
    exact .reported (by simp [hbound]) (by simp)

/-! ## Every run -/

end Anchored

end Analysis

/-- Does a kind of node declare something that is static? -/
def Kind.isDefinition : Kind → Bool
  | .moduleDef | .structDef | .unionDef | .enumDef | .variantDef | .aliasDef | .funcDef => true
  | _ => false

namespace Analysis

variable {cfg schedule}

/-- No definition is lost or replaced on the way from a point of a run to the end of the module that
it is part of. -/
structure Persists (cfg : Config) (schedule : Schedule) (l : Nat) (ns : List Node) (p : Point)
    (s : State) : Prop where
  /-- Before the point and after it no name is that of definitions in two open scopes. -/
  once : s.table.StaticOnce ∧ (p.after cfg schedule s).table.StaticOnce
  /-- Closing the innermost scope would overwrite nothing. -/
  closes : s.table.ClosesSafely ∧ (p.after cfg schedule s).table.ClosesSafely
  /-- What is defined after the point is an entry of the finished table, as it was defined. -/
  kept : ∀ e, (p.after cfg schedule s).table.Defines e →
    (finished cfg schedule l ns).table.root.get? e.name = some e
  /-- So is what a statement declares, unless that was reported. -/
  declared : ∀ k run h cs fs b, p = .statement (k + 1) run (.mk h cs fs b) → h.kind.isDefinition →
    Delivered cfg schedule k s (p.after cfg schedule s).findings
      (finished cfg schedule l ns).table h cs
  /-- So is a function that is declared to be defined elsewhere. -/
  external : ∀ h cs fs b, p = .item (.mk h cs fs b) → h.kind = .funcDef →
    Delivered cfg schedule l s (p.after cfg schedule s).findings
      (finished cfg schedule l ns).table h cs
  /-- The finished table has no open scope, and it lists each name that it binds once. -/
  stack : (finished cfg schedule l ns).table.stack = []
  nodup : ((finished cfg schedule l ns).table.root.entries.map (·.name)).Nodup
  listed : ∀ e, e ∈ (finished cfg schedule l ns).table.root.entries ↔
    (finished cfg schedule l ns).table.root.get? e.name = some e

section Runs

variable {l k : Nat} {ns cs : List Node} {p : Point} {s : State} {run : Option ModuleRun} {h : Head}
  {fs : List (Component Node)} {b : Node}

/-- What a statement declares is in the finished table, unless its name was bound already. -/
theorem statement_delivered
    (ha : Anchored cfg schedule l ns (.statement (k + 1) run (.mk h cs fs b)) s)
    (hdef : h.kind.isDefinition) :
    Delivered cfg schedule k s (stmtAt cfg schedule (k + 1) run (.mk h cs fs b) s).2.findings
      (finished cfg schedule l ns).table h cs := by
  have hT := finished_sound cfg schedule l ns
  have hlater : (stmtAt cfg schedule (k + 1) run (.mk h cs fs b) s).2.Later
    (finished cfg schedule l ns) := ha.later
  have hsettles : ∀ {s' : State}, Settles s h s' →
      (stmtAt cfg schedule (k + 1) run (.mk h cs fs b) s).2 = s' →
      Delivered cfg schedule k s (stmtAt cfg schedule (k + 1) run (.mk h cs fs b) s).2.findings
        (finished cfg schedule l ns).table h cs := by
    intro s' hs' he
    rw [he] at hlater ⊢
    exact hs'.delivered ha.sound hT hlater
  have hstep : (stmtAt cfg schedule (k + 1) run (.mk h cs fs b) s).2
      = (stmtStep cfg (belowAt cfg schedule k) run (.mk h cs fs b) s).2 := rfl
  unfold stmtStep at hstep
  unfold Kind.isDefinition at hdef
  split at hdef
  · rename_i hk
    simp only [hk] at hstep
    rw [hstep] at hlater ⊢
    exact module_delivered hk (ha.ahead _ _ _ rfl) hT hlater
  · rename_i hk
    simp only [hk] at hstep
    exact hsettles (record_settles fs (.inl hk)) hstep
  · rename_i hk
    simp only [hk] at hstep
    exact hsettles (record_settles fs (.inr hk)) hstep
  · rename_i hk
    simp only [hk] at hstep
    exact hsettles (enum_settles hk) hstep
  · rename_i hk
    simp only [hk] at hstep
    exact hsettles (variant_settles hk) hstep
  · rename_i hk
    simp only [hk] at hstep
    exact hsettles (aliasDecl_settles hk) hstep
  · rename_i hk
    simp only [hk] at hstep
    rw [hstep] at hlater ⊢
    exact function_delivered _ (fun _ hs₁ => body_ends (trivial_carried cfg)
      (belowAt_sound cfg schedule k) (fun _ _ => trivial) hs₁) hk ha.sound hT hlater
  · cases hdef

/-- A function that is declared to be defined elsewhere is in the finished table, unless its name
was bound already. -/
theorem item_delivered (ha : Anchored cfg schedule l ns (.item (.mk h cs fs b)) s)
    (hk : h.kind = .funcDef) :
    Delivered cfg schedule l s (externItems [.mk h cs fs b] s).2.findings
      (finished cfg schedule l ns).table h cs := by
  have hlater : (externItems [.mk h cs fs b] s).2.Later (finished cfg schedule l ns) := ha.later
  have hitem : (externItems [.mk h cs fs b] s).2 = (function h .foreignFn b pure s).2 := by
    simp only [externItems, hk]
    rfl
  rw [hitem] at hlater ⊢
  exact function_delivered _ (fun _ hs₁ => .pure hs₁ (List.forall₂_same.2 fun _ _ => trivial)) hk
    ha.sound (finished_sound cfg schedule l ns) hlater

/-- The table of the outcome is the one that the analysis of the program as a module ends with. -/
theorem analyzeBy_table {tree : Node} (hk : tree.kind? = some .program) :
    (tree.analyzeBy schedule cfg).table
      = (finished cfg schedule cfg.depthLimit tree.children).table := by
  rw [analyzeBy_eq]
  unfold program
  simp only [hk, if_true]
  rfl

theorem Visits.kind_eq {tree : Node} (hv : Visits cfg schedule tree l ns p s) :
    tree.kind? = some .program := by
  induction hv with
  | program hk => exact hk
  | _ => assumption

/-- No definition is ever lost or replaced. Wherever a run over a program has got to, no name is
that of definitions in two open scopes, and closing a scope overwrites no entry of the scope around
it. Every module, type, alias and function that was declared, and the structs of every variant, are
in the end entries of the root scope of the finished table of their module, unless they were
reported as defined before; that table lists each name that it binds once. The table of the outcome
is the finished table of the program. -/
theorem definitions_persist {tree : Node} (hv : Visits cfg schedule tree l ns p s) :
    Persists cfg schedule l ns p s ∧ (tree.analyzeBy schedule cfg).table
      = (finished cfg schedule cfg.depthLimit tree.children).table := by
  have ha := hv.anchored
  obtain ⟨hafter, -⟩ := ha.ends
  obtain ⟨hsound, hstack⟩ := finished_sound cfg schedule l ns
  have horderly := hsound.apart.orderly _ (Table.mem_scopes.2 (.head _))
  refine ⟨?_, analyzeBy_table hv.kind_eq⟩
  exact {
    once := ⟨ha.sound.apart.staticOnce, hafter.apart.staticOnce⟩
    closes := ⟨ha.sound.apart.closesSafely, hafter.apart.closesSafely⟩
    kept := fun e he => root_get? ⟨hsound, hstack⟩ ha.later he
    declared := by
      rintro k run h cs fs b rfl hdef
      exact statement_delivered ha hdef
    external := by
      rintro h cs fs b rfl hk
      exact item_delivered ha hk
    stack := hstack
    nodup := by
      rw [horderly.map_entries]
      exact horderly.nodup
    listed := fun e => by
      rw [horderly.mem_entries]
      exact ⟨horderly.get?_eq, Scope.holds_of_get?⟩ }

/-- An enum in a block in a function, of which a parameter has the name of a struct. -/
def buriedEnum (e : Node) : Node :=
  .ofChildren { kind := .program, loc := {} }
    [.leaf { kind := .structDef, loc := {}, name := .name "S" },
      .mk { kind := .funcDef, loc := {}, name := .name "f", type := .unit,
            params := [{ name := .name "S", type := .basic .i32 }] } [] []
        (.ofChildren { kind := .block, loc := {} } [.ofChildren { kind := .block, loc := {} } [e]])]

theorem definitions_persist_buried :
    let e : Node := .leaf { kind := .enumDef, loc := {}, name := .name "E" }
    ∃ s, Visits {} .written (buriedEnum e) 1000 (buriedEnum e).children (.statement 998 none e) s ∧
      Persists {} .written 1000 (buriedEnum e).children (.statement 998 none e) s := by
  intro e
  have hprogram : Visits {} .written (buriedEnum e) 1000 (buriedEnum e).children
    (.body 1000 (buriedEnum e).children) {} := .program rfl
  have hslots : lookAhead {} (belowAt {} .written 1000) (buriedEnum e).children
    = [(none, (buriedEnum e).children.head!)] ++ (none, (buriedEnum e).children.getLast!) :: [] := rfl
  have hbody := (hprogram.statement hslots).function rfl rfl rfl
  have hone : ∀ (k : Nat) (n : Node),
      lookAhead {} (belowAt {} .written k) [n] = [] ++ (none, n) :: [] := fun _ _ => rfl
  have hblock := (hbody.statement (hone _ _)).block (.inl ⟨rfl, rfl⟩)
  have henum := hblock.statement (hone _ _)
  exact ⟨_, henum, (definitions_persist henum).1⟩

end Runs

end Analysis

end TreeSema
