import TreeSema.Proofs.Trace.Home
import TreeSema.Proofs.Trace.Stmt

/-!
# What is opened is closed

Analysis opens scopes, functions and bodies, and each call of it closes what it has opened, also
where it gives up early. So scopes and functions are open after a call just as before it, from
whatever state it starts, and the types that a body queues are looked up at its end and taken off.

The number of levels left goes down by one with each call inside another and is the same for all
that a call leaves to the level below, however much came before it.

* `State.Balanced`: as much is open as before.
* `Nested`: how many calls are open between two points of a run.
* `analysis_balanced`: all calls, all bodies and all finished tables.
-/
namespace TreeSema

/-! ## Finished tables -/

namespace ModuleBody

mutual

/-- The tables of the modules in a finished table are finished, at whatever depth. -/
theorem stack_of_mem_tables : ∀ b : ModuleBody, Symbols.Sound b.get → b.get.stack = [] →
    ∀ t ∈ b.tables, t.stack = []
  | .table ⟨⟨transient, persistent, order, context⟩, stack⟩, hsound, hstack => by
    obtain rfl : stack = [] := hstack
    have hmodules : ∀ e, e ∈ transient ∨ e ∈ persistent → ∀ body, e.kind = .moduleDef (some body) →
        Symbols.Sound body.get ∧ body.get.stack = [] := by
      intro e he body hk
      have hholds : Table.Holds ⟨⟨transient, persistent, order, context⟩, []⟩ e :=
        ⟨_, List.mem_cons_self, he⟩
      exact ⟨hsound.module hholds hk, hsound.closed hholds hk⟩
    have htransient := stack_of_mem_tablesOfEntries transient fun e he => hmodules e (.inl he)
    have hpersistent := stack_of_mem_tablesOfEntries persistent fun e he => hmodules e (.inr he)
    simpa [tables, tablesOfScopes, or_imp, forall_and] using ⟨htransient, hpersistent⟩

theorem stack_of_mem_tablesOfEntries : ∀ es : List SymbolEntry,
    (∀ e ∈ es, ∀ body, e.kind = .moduleDef (some body) →
      Symbols.Sound body.get ∧ body.get.stack = []) →
    ∀ t ∈ tablesOfEntries es, t.stack = []
  | [], _ => List.forall_mem_nil _
  | ⟨name, static, kind, loc⟩ :: es, h => by
    obtain ⟨hhead, htail⟩ := List.forall_mem_cons.1 h
    have hes := stack_of_mem_tablesOfEntries es htail
    cases kind with
    | moduleDef body =>
      cases body with
      | none => exact hes
      | some body =>
        obtain ⟨hsound, hstack⟩ := hhead body rfl
        exact List.forall_mem_append.2 ⟨stack_of_mem_tables body hsound hstack, hes⟩
    | _ => exact hes

end

end ModuleBody

namespace Analysis

variable {cfg : Config} {schedule : Schedule} {s s' : State} {ts : List Task}

/-! ## Balance -/

/-- As many scopes and functions are open as before. -/
structure State.Balanced (s s' : State) : Prop where
  depth : s'.table.depth = s.table.depth
  returns : s'.returns.length = s.returns.length

theorem Moves.balanced {k : Nat} (h : Moves (belowAt cfg schedule k) (fun _ => True) s ts s') :
    s.Balanced s' := by
  have hadds := h.adds fun _ => Task.after_adds hereditary_true k
  exact ⟨Table.depth_of_contexts hadds.contexts, congrArg List.length hadds.returns⟩

theorem Task.after_balanced {k : Nat} {t : Task}
    (ht : t.Proper (belowAt cfg schedule k) fun _ => True) :
    t.state.Balanced (t.after (belowAt cfg schedule k)) :=
  (Moves.task ht).balanced

theorem checkAll_eq_foldl (q : List (Ty × Location)) (s : State) :
    (checkAll q s).2 = q.foldl (fun s d => (checkType d.2 d.1 s).2) s := by
  induction q generalizing s with
  | nil => rfl
  | cons d q ih => exact ih _

/-- The types that are queued in a body are looked up at its end, each once and one after the other,
while its scope is still open, and are taken off the queue. -/
def Settled (cfg : Config) (below : Below) (nodes : List Node) (s : State) : Prop :=
  ∃ s₁ q, (statements below (lookAhead cfg below nodes) s).2 = s₁ ∧ s.Balanced s₁ ∧
    s₁.declared = s.declared ++ q ∧ (body cfg below nodes s).2
      = { q.foldl (fun s d => (checkType d.2 d.1 s).2) s₁ with declared := s.declared }

theorem body_settled (k : Nat) (nodes : List Node) (s : State) :
    Settled cfg (belowAt cfg schedule k) nodes s := by
  have hmoves := statements_moving (P := fun _ => True) (fun _ _ => trivial)
    (lookAhead_aheadOf cfg (belowAt cfg schedule k) nodes) s
  generalize hs₁ : (statements (belowAt cfg schedule k)
    (lookAhead cfg (belowAt cfg schedule k) nodes) s).2 = s₁ at hmoves
  obtain ⟨q, hq⟩ := (hmoves.adds fun _ => Task.after_adds hereditary_true k).declared
  refine ⟨s₁, q, hs₁, hmoves.balanced, hq.symm, ?_⟩
  have hdrop : s₁.declared.drop s.declared.length = q := by rw [← hq, List.drop_left]
  have hdeclared : (checkAll q s₁).2.declared.take s.declared.length = s.declared := by
    obtain ⟨found, hchecked⟩ := (checkAll_quiet q).run s₁
    rw [hchecked, ← hq, List.take_left]
  rw [body_state, hs₁, settleDeclared_state, hdrop, hdeclared, checkAll_eq_foldl]

/-! ## Levels -/

variable (cfg schedule) in
/-- From a point of a run to one in the course of it; so many calls are open in between. -/
inductive Nested : Moment → Nat → Moment → Prop
  | here (m : Moment) : Nested m 0 m
  | inside {k d : Nat} {t t' : Task} {m : Moment}
      (part : t' ∈ t.parts cfg (belowAt cfg schedule k)) (deeper : Nested ⟨k, t'⟩ d m) :
    Nested ⟨k + 1, t⟩ (d + 1) m

theorem nested_of_mem_moments : ∀ (k : Nat) {t : Task}, ∀ m ∈ t.moments cfg schedule k,
    ∃ d, Nested cfg schedule ⟨k, t⟩ d m ∧ m.levels + d = k
  | 0, t => List.forall_mem_singleton.2 ⟨0, .here _, rfl⟩
  | k + 1, t => by
    refine List.forall_mem_cons.2 ⟨⟨0, .here _, rfl⟩, fun m hm => ?_⟩
    obtain ⟨t', ht', hm⟩ := List.mem_flatMap.1 hm
    obtain ⟨d, hnested, hlevels⟩ := nested_of_mem_moments k m hm
    exact ⟨d + 1, .inside ht' hnested, by omega⟩

/-! ## Programs -/

/-- Every call leaves as many scopes and functions open as there were, from whatever state, and with
each call that is open one level less is left. A body looks up each type that was queued in it once
while its scope is open, and leaves the queue as it was. In the end no table has an open scope. -/
theorem analysis_balanced (cfg : Config) (schedule : Schedule) (k : Nat) :
    (∀ (n : Node) (expected : Ty) (s : State), s.Balanced (exprAt cfg k n expected s).2) ∧
    (∀ (run : Option ModuleRun) (n : Node) (s : State), AheadOf (belowAt cfg schedule k) (run, n) →
      s.Balanced (stmtAt cfg schedule k run n s).2) ∧
    (∀ t : Task, ∀ m ∈ t.moments cfg schedule k,
      ∃ d, Nested cfg schedule ⟨k, t⟩ d m ∧ m.levels + d = k) ∧
    (∀ (nodes : List Node) (s : State), s.Balanced (body cfg (belowAt cfg schedule k) nodes s).2 ∧
      Settled cfg (belowAt cfg schedule k) nodes s) ∧
    ∀ tree : Node, ∀ t ∈ (tree.analyzeBy schedule cfg).table.tables, t.depth = 0 := by
  refine ⟨fun n expected s => ?_, fun run n s hahead => ?_, fun t => nested_of_mem_moments k,
    fun nodes s => ⟨?_, body_settled k nodes s⟩, fun tree t ht => ?_⟩
  · have ht : Task.Proper (belowAt cfg schedule k) (fun _ => True) (.expr n expected s) := trivial
    exact Task.after_balanced ht
  · exact Task.after_balanced (t := .stmt run n s) ⟨trivial, hahead⟩
  · exact (body_moving cfg (belowAt cfg schedule k) (fun _ _ => trivial) s).balanced
  · obtain ⟨hsound, hstack⟩ : (tree.analyzeBy schedule cfg).table.Sound ∧
        (tree.analyzeBy schedule cfg).table.stack = [] := by
      by_cases hk : tree.kind? = some .program
      · rw [analyzeBy_table hk]
        exact finished_sound cfg schedule _ _
      · rw [analyzeBy_eq]
        unfold program
        rw [if_neg hk]
        exact ⟨.empty, rfl⟩
    exact congrArg List.length (ModuleBody.stack_of_mem_tables (.table _) hsound hstack t ht)

end Analysis

end TreeSema
