import TreeSema.Proofs.Accept.Stmt
import TreeSema.Proofs.LookAhead

/-!
# Programs without errors are accepted

The rules of acceptance are tied together as those of analysis are, by the number of levels that are
left. Nothing in them tells how many modules are analysed at a time: a program without errors is one
that is accepted with the modules in their places.

* `Elaborates`, `StmtElaborates`: what is accepted of expressions and statements with a number of
  levels left.
* `program_passes`: a program without errors is accepted.
* `program_eq_sequential`: without errors an analysis is one with a single job.
-/
namespace TreeSema.Analysis

/-- A statement is accepted with a number of levels left, by the rules of acceptance alone. -/
def StmtElaborates : Nat → StmtJudgement
  | 0 => fun _ _ _ _ => False
  | k + 1 => Performs (Elaborates k) (StmtElaborates k)

/-- What an analysis of statements does without errors, where no module is analysed ahead. -/
def Below.Gives (below : Below) : StmtJudgement :=
  fun s n n' s' => CleanRun (below.stmt none n) s n' s'

/-- A program is accepted: it becomes another one, and a state is left. -/
def ProgramOf (S : StmtJudgement) (tree tree' : Node) (s' : State) : Prop :=
  tree.kind? = some .program ∧
    ∃ cs', tree' = tree.withChildren cs' ∧ BodyOf S {} tree.children cs' s'

section Levels

variable {cfg : Config} (schedule : Schedule) (hcfg : cfg.looksAhead = false)

include hcfg

/-- What is analysed without errors is accepted, at every level. -/
theorem belowAt_elaborates : ∀ k,
    (belowAt cfg schedule k).Honest (Elaborates k) (StmtElaborates k)
  | 0 => {
    expr := exprAt_elaborates cfg 0
    stmt := fun n => (refuse_passes cfg n.loc).bind fun _ => .pure fun _ _ _ (h : False) => h }
  | k + 1 => {
    expr := exprAt_elaborates cfg (k + 1)
    stmt := stmtStep_passes hcfg (belowAt_elaborates k) }

theorem belowAt_honest (k : Nat) : (belowAt cfg schedule k).Honest (exprAt cfg k).Gives
    (belowAt cfg schedule k).Gives where
  expr := exprAt_honest cfg k
  stmt n := ((belowAt_elaborates schedule hcfg k).stmt n).growing.passes

theorem program_passes {B S} (tree : Node) (hb : (belowAt cfg schedule cfg.depthLimit).Honest B S) :
    Passes (program cfg schedule tree) fun s tree' s' => s = {} → ProgramOf S tree tree' s' := by
  unfold program
  split
  · rename_i hkind
    refine (body_passes hcfg hb tree.children).bind fun cs' => .pure fun s₁ _ s hcs hs => ?_
    subst hs
    exact ⟨hkind, cs', rfl, hcs⟩
  · exact .rejects _ rfl _

end Levels

/-- Without errors an analysis is one with a single job. -/
theorem program_eq_sequential (cfg : Config) (schedule : Schedule) {tree}
    (hclean : (program { cfg with jobs := 1 } .written tree {}).2.Clean) :
    program cfg schedule tree {} = program { cfg with jobs := 1 } .written tree {} := by
  have hwatched : Watched (fun f => f.cause.severity = .error) tree := fun _ _ _ => rfl
  have hagree := program_agrees cfg schedule hwatched
  have hstate := hagree.state {}
  refine Prod.ext (hagree.result {} fun f hf => ?_) hstate
  exact hclean.findings f (hstate ▸ hf)

theorem hasErrors_eq_false_iff (cfg : Config) (schedule : Schedule) (tree : Node) :
    (tree.analyzeBy schedule cfg).diagnostics.hasErrors = false ↔
      (program { cfg with jobs := 1 } .written tree {}).2.Clean := by
  have hwatched : Watched (fun _ => True) tree := fun _ _ _ => trivial
  rw [← (program_agrees cfg schedule hwatched).state {}]
  exact ⟨clean_of_hasErrors cfg schedule, hasErrors_of_clean cfg schedule⟩

/-- A program in which no error is found is accepted. -/
theorem accepted_of_hasErrors {cfg : Config} {schedule} {tree : Node}
    (hok : (tree.analyzeBy schedule cfg).diagnostics.hasErrors = false) :
    ∃ s, ProgramOf (StmtElaborates cfg.depthLimit) tree (tree.analyzeBy schedule cfg).tree s ∧
      s.table = (tree.analyzeBy schedule cfg).table := by
  have hclean := (hasErrors_eq_false_iff cfg schedule tree).1 hok
  have hpasses := program_passes .written (looksAhead_one cfg) tree
    (belowAt_elaborates .written (looksAhead_one cfg) _)
  rw [analyzeBy_eq, program_eq_sequential cfg schedule hclean]
  exact ⟨_, hpasses.post {} hclean rfl, rfl⟩

end TreeSema.Analysis
