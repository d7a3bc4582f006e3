import TreeSema.Analysis.Stmt

/-!
# Analysis of programs

The rules for single nodes are tied together here. Every expression and every statement is a level
of nesting, and the number of levels left is what the recursion goes down on, so that the limit on
nesting is also what makes it end. The order in which modules are analysed ahead is left open.
-/
namespace TreeSema

namespace Analysis

/-- Analyses an expression with a number of levels left. -/
def exprAt (cfg : Config) : Nat → ExprRule
  | 0, n, _ => do
    refuse cfg n.loc
    return (n, none)
  | k + 1, n, expected => exprStep (exprAt cfg k) expected n

variable (cfg : Config) (schedule : Schedule)

mutual

/-- Analyses a statement with a number of levels left. -/
def stmtAt : Nat → Option ModuleRun → Node → Analysis Node
  | 0, _, n => do
    refuse cfg n.loc
    return n
  | k + 1, run, n => stmtStep cfg ⟨exprAt cfg k, stmtAt k, aheadAt k, schedule⟩ run n

/-- Analyses the body of a module with a number of levels left, one of which is the module. -/
def aheadAt : Nat → List Node → ModuleRun
  | 0, nodes => ⟨nodes, .empty, []⟩
  | k + 1, nodes => ModuleRun.ofBody cfg ⟨exprAt cfg k, stmtAt k, aheadAt k, schedule⟩ nodes

end

/-- What analysis makes of nodes with a number of levels left. -/
def belowAt (k : Nat) : Below :=
  ⟨exprAt cfg k, stmtAt cfg schedule k, aheadAt cfg schedule k, schedule⟩

/-- Analyses a whole program. -/
def program (tree : Node) : Analysis Node := do
  if tree.kind? = some .program then
    return tree.withChildren (← body cfg (belowAt cfg schedule cfg.depthLimit) tree.children)
  report (if tree.isAbsent then { unit := cfg.unit } else tree.loc) (.defect .notProgram)
  return tree

end Analysis

/-- The outcome of an analysis: the table of the program with one table for each module in it, the
tree with access chains replaced by what they mean, and the diagnostics sorted by location. -/
structure Outcome where
  table : Symbols
  tree : Node
  diagnostics : Diagnostics

/-- Analyses a tree, with the modules of each body in some order where they are analysed ahead. -/
def Node.analyzeBy (schedule : Analysis.Schedule) (tree : Node) (cfg : Config) : Outcome :=
  let (tree, s) := (Analysis.program cfg schedule tree).run {}
  ⟨s.table, tree, Diagnostics.sort (s.findings.map Finding.toDiagnostic)⟩

/-- Analyses a tree. -/
def Node.analyze (tree : Node) (cfg : Config) : Outcome := tree.analyzeBy .written cfg

end TreeSema
