import TreeSema.Analysis.Program
import TreeSema.Command.Files
import TreeSema.Command.Flag
import TreeSema.Symbol.Listing
import TreeSema.Tree.Printer
import TreeSema.Tree.Reader

/-!
# Commands

`check` reports what is wrong with a program, and `dump` shows the program after analysis. What a
command needs of its surroundings, files and a clock, is a `Host`; what it does to them is a
`Report`, so that a command is a function.
-/
namespace TreeSema.Command

/-- What a command leaves: an exit code and the texts for the two output streams. -/
structure Report where
  exit : UInt32 := 0
  out : String := ""
  err : String := ""
  deriving DecidableEq, Repr

/-- What a command needs. -/
structure Host (m : Type → Type) where
  read : String → m (Except FileFault Contents)
  /-- Runs a step and says how long it took. -/
  timed : {α : Type} → (Unit → m α) → m (α × String)

def usage : String :=
  "Ember - semantic analyzer for the Ember language

Usage:
    ember <command> [arguments]

Commands:
    check <file>    Analyze a parsed .etree file and report diagnostics
    dump <file>     Analyze a parsed .etree file and print the rewritten tree
    help            Show this help message

Examples:
    ember check main.etree
    ember check -j 4 -v main.etree
    ember dump -table main.etree

Use \"ember <command> -h\" for more information about a command.
"

/-! ## Reading and analysing -/

/-- Why there is no analysis of a file. -/
inductive Trouble where
  | unreadable (file : String) (fault : FileFault)
  | malformed (error : TreeError)

def Trouble.message : Trouble → String
  | unreadable file fault => s!"reading {file}: {fault.message file}"
  | malformed error => s!"reading tree: {error.message}"

/-- An analysis of a file and what there is to say of how it went. -/
structure Analyzed where
  outcome : Outcome
  details : String

/-- A command that takes flags and one file. -/
structure Subcommand (m : Type → Type) where
  usage : String
  flags : List Flag
  run : Options → String → m Report

variable {m : Type → Type} [Monad m]

/-- Reads a tree from a file; with it comes the size of the file. -/
def readTree (host : Host m) (file : String) : m (Except Trouble (Node × Nat)) := do
  match ← host.read file with
  | .error fault => return .error (.unreadable file fault)
  | .ok contents =>
    match Node.read contents.text file with
    | .error e => return .error (.malformed e)
    | .ok tree => return .ok (tree, contents.size)

def analysisOf (host : Host m) (file : String) (o : Options) : m (Except Trouble Analyzed) := do
  let (result, readTime) ← host.timed fun _ => readTree host file
  match result with
  | .error trouble => return .error trouble
  | .ok (tree, size) =>
    let cfg : Config := ⟨o.maxDepth, o.jobs, file⟩
    let (outcome, time) ← host.timed fun _ => pure (tree.analyze cfg)
    let errors := Diagnostics.count .error outcome.diagnostics
    let warnings := Diagnostics.count .warning outcome.diagnostics
    return .ok ⟨outcome, s!"Read {file} ({size} bytes) in {readTime}\n"
      ++ s!"Analyzed with {o.jobs} job(s) in {time}: {errors} error(s), {warnings} warning(s)\n"⟩

/-- Diagnostics, one a line. -/
def printed (ds : Diagnostics) : String :=
  if ds.isEmpty then "" else Diagnostics.toString ds ++ "\n"

/-! ## Commands -/

def jobsFlag : Flag where
  name := "j"
  help := "Number of sibling modules to analyze concurrently"
  setting := .number 1 fun n o => { o with jobs := n }

def depthFlag : Flag where
  name := "max-depth"
  help := "Maximum nesting depth of the input tree"
  setting := .number 1000 fun n o => { o with maxDepth := n }

def tableFlag : Flag where
  name := "table"
  help := "Also print the symbol table"
  setting := .switch fun b o => { o with table := b }

def verboseFlag (help : String) : Flag where
  name := "v"
  help := help
  setting := .switch fun b o => { o with verbose := b }

def check (host : Host m) : Subcommand m where
  usage := "Usage: ember check [-v] [-j N] [-max-depth N] <file>\n"
    ++ "Analyze a parsed .etree file and report diagnostics\n"
  flags := [jobsFlag, depthFlag, verboseFlag "Show verbose checking details"]
  run o file := do
    let heading := if o.verbose then s!"Checking {file}...\n" else ""
    match ← analysisOf host file o with
    | .error trouble => return { exit := 1, out := heading, err := s!"Error: {trouble.message}\n" }
    | .ok ⟨outcome, details⟩ =>
      let details := if o.verbose then details else ""
      let out := heading ++ details ++ printed outcome.diagnostics
      if Diagnostics.hasErrors outcome.diagnostics then return { exit := 1, out }
      return { out := out ++ s!"{file}: no errors found\n" }

def dump (host : Host m) : Subcommand m where
  usage := "Usage: ember dump [-v] [-table] [-j N] [-max-depth N] <file>\n"
    ++ "Analyze a parsed .etree file and print the rewritten tree\n"
  flags := [jobsFlag, depthFlag, tableFlag, verboseFlag "Show verbose analysis details"]
  run o file := do
    match ← analysisOf host file o with
    | .error trouble => return { exit := 1, err := s!"Error: {trouble.message}\n" }
    | .ok ⟨outcome, details⟩ =>
      let details := if o.verbose then details else ""
      let table := if o.table then "\nSymbols:\n" ++ outcome.table.listing else ""
      return {
        exit := if Diagnostics.hasErrors outcome.diagnostics then 1 else 0
        out := outcome.tree.render ++ "\n" ++ table
        err := details ++ printed outcome.diagnostics }

/-- What a command says of itself. -/
def Subcommand.help (c : Subcommand m) : String :=
  c.usage ++ "\nFlags:\n" ++ String.join (c.flags.map Flag.describe)

/-- Runs a command with arguments. -/
def Subcommand.start (c : Subcommand m) (args : List String) : m Report := do
  match parseFlags c.flags {} args with
  | .error fault =>
    match fault.message? with
    | none => return { err := c.help }
    | some message => return { exit := 2, err := message ++ "\n" ++ c.help }
  | .ok (o, [file]) => c.run o file
  | .ok _ => return { exit := 1, err := "Error: expected exactly one file argument\n" ++ c.help }

/-- Runs the program with arguments. -/
def run (host : Host m) : List String → m Report
  | [] => return { exit := 1, err := usage }
  | name :: args =>
    if name = "check" then (check host).start args
    else if name = "dump" then (dump host).start args
    else if name = "help" ∨ name = "-h" ∨ name = "--help" then return { err := usage }
    else return { exit := 1, err := s!"Unknown command: {name}\n\n" ++ usage }

end TreeSema.Command
