import TreeSema.Datum.Reader
import TreeSema.Markdown.Block

/-!
# Golden tests

Golden tests are written in Markdown. A heading that starts with `Test: ` begins a test, and the
fenced blocks up to the next such heading belong to it: one with its input, and one or more with
what is expected of it. Other headings mean nothing, and neither do blocks without a language.
-/
namespace TreeSema.Golden

open Markdown (Block)

/-- The language of the block with the input of a test. -/
def inputLanguage : String := "ember-tree"

/-- What an expectation is about. -/
inductive Aspect where
  | diagnostics
  | tree
  | symbols
  deriving DecidableEq, Repr

namespace Aspect

/-- The language of blocks with such expectations. -/
def language : Aspect → String
  | diagnostics => "diagnostics"
  | tree => "tree"
  | symbols => "symbols"

def ofLanguage? (language : String) : Option Aspect :=
  [diagnostics, tree, symbols].find? (·.language == language)

end Aspect

/-- Something that a test expects; for a tree, `pattern` is its content read as a datum. -/
structure Assertion where
  aspect : Aspect
  content : String
  line : Nat
  pattern : Option Datum

structure Case where
  name : String
  input : String := ""
  inputLine : Nat := 0
  assertions : List Assertion := []

/-- Why a document holds no tests that can be run. -/
inductive Cause where
  | outside (line : Nat) (language : String)
  | unknownOutside (line : Nat) (language : String)
  | unknownLanguage (line : Nat) (language test : String)
  | manyInputs (line : Nat) (test : String)
  | badPattern (line : Nat) (test : String) (error : ReadError)
  | noInput (test : String)
  | noAssertions (test : String)

def Cause.message : Cause → String
  | outside line language => s!"line {line}: {language} fence found outside of test case"
  | unknownOutside line language =>
    s!"line {line}: unknown fence language '{language}' found outside of test case"
  | unknownLanguage line language test =>
    s!"line {line}: unknown fence language '{language}' in test '{test}'"
  | manyInputs line test => s!"line {line}: multiple input fences found in test '{test}'"
  | badPattern line test error =>
    s!"line {line}: failed to parse tree assertion in test '{test}': {error.message}"
  | noInput test => s!"test '{test}' has no input fence"
  | noAssertions test => s!"test '{test}' has no assertion fences"

/-- A cause, and whether it was found only at the end of the document. -/
structure Failure where
  cause : Cause
  atEnd : Bool

def Failure.message (f : Failure) : String :=
  if f.atEnd then f.cause.message else "error walking markdown AST: " ++ f.cause.message

/-- A text without the line ends at its end. -/
def dropNewlines (text : String) : String :=
  String.ofList (Markdown.dropEndWhile (· == '\n') text.toList)

/-- The name of the test that a heading begins. -/
def testName? (heading : String) : Option String :=
  match heading.toList with
  | 'T' :: 'e' :: 's' :: 't' :: ':' :: ' ' :: name => some (String.ofList name)
  | _ => none

/-- A test is complete with an input that is not empty and an assertion. -/
def Case.check (c : Case) : Except Cause Case :=
  if c.input = "" then .error (.noInput c.name)
  else if c.assertions.isEmpty then .error (.noAssertions c.name)
  else .ok c

/-- Completes the tests before a point: those that are done and the one that is not, if any. -/
def complete (done : List Case) : Option Case → Except Cause (List Case)
  | none => .ok done
  | some c => do return done ++ [← c.check]

/-- Adds an expectation to a test. -/
def Case.expect (c : Case) (aspect : Aspect) (content : String) (line : Nat) :
    Except Cause Case := do
  let pattern ←
    match aspect with
    | .tree =>
      match Datum.read content with
      | .ok d => pure (some d)
      | .error e => throw (.badPattern line c.name e)
    | _ => pure none
  return { c with assertions := c.assertions ++ [⟨aspect, content, line, pattern⟩] }

/-- Adds a fenced block to a test. An input that is empty gives way to another. -/
def Case.addFence (c : Case) (language content : String) (line : Nat) : Except Cause Case :=
  if language = inputLanguage then
    if c.input ≠ "" then .error (.manyInputs line c.name)
    else .ok { c with input := dropNewlines content, inputLine := line }
  else
    match Aspect.ofLanguage? language with
    | some aspect => c.expect aspect (dropNewlines content) line
    | none => if language = "" then .ok c else .error (.unknownLanguage line language c.name)

/-- Is a language one that belongs in a test? -/
def isKnown (language : String) : Bool :=
  language == inputLanguage || (Aspect.ofLanguage? language).isSome

/-- A fenced block before the first test. -/
def checkOutside (language : String) (line : Nat) : Except Cause Unit :=
  if language = "" then .ok ()
  else if isKnown language then .error (.outside line language)
  else .error (.unknownOutside line language)

/-- The tests in blocks, after those that are done and the one that is not. -/
def casesFrom (done : List Case) (current : Option Case) : List Block → Except Failure (List Case)
  | [] => (complete done current).mapError (⟨·, true⟩)
  | .heading text :: rest =>
    match testName? text with
    | none => casesFrom done current rest
    | some name =>
      match complete done current with
      | .error cause => .error ⟨cause, false⟩
      | .ok done => casesFrom done (some { name }) rest
  | .fence language content line :: rest =>
    match current with
    | none =>
      match checkOutside language line with
      | .error cause => .error ⟨cause, false⟩
      | .ok _ => casesFrom done none rest
    | some c =>
      match c.addFence language content line with
      | .error cause => .error ⟨cause, false⟩
      | .ok c => casesFrom done (some c) rest

/-- The tests in a Markdown document. -/
def cases (text : String) : Except Failure (List Case) := casesFrom [] none (Markdown.blocks text)

end TreeSema.Golden
