import Mathlib
import TreeSema.Golden
import TreeSema.Proofs.Pointwise

/-!
# The tests of a document

A document is read block by block, with the tests that are done and the one that is not. What is
found is better said of the sections of the document: a test heading opens one, and the fenced
blocks up to the next test heading are its own.

* `Case.addFence_plain`, `Case.addFence_input`, `Case.addFence_expectation`: what one more block
  makes of a test.
* `Grows`, `grows_cons`: what the blocks of a section make of it, told by kind of block.
* `casesFrom_some_eq_ok_iff`, `casesFrom_none_eq_ok_iff`: what is read is a test for each section.
* `cases_exact`: which documents hold tests that can be run, and which tests those are.
* `cases_two_inputs`: an input of line ends only may come before the input of a test.
-/
namespace TreeSema.Golden

open Markdown (Block)

/-- A fenced block. -/
structure Fence where
  language : String
  content : String
  line : Nat

/-- A test heading without its mark, and the fenced blocks up to the next test heading. -/
structure Section where
  name : String
  fences : List Fence

/-- The fenced blocks before the first test heading, and the sections of the test headings. -/
def sections : List Block → List Fence × List Section
  | [] => ([], [])
  | .heading text :: rest =>
    match testName? text with
    | none => sections rest
    | some name => ([], ⟨name, (sections rest).1⟩ :: (sections rest).2)
  | .fence language content line :: rest =>
    (⟨language, content, line⟩ :: (sections rest).1, (sections rest).2)

theorem testName?_eq_some_iff {heading name : String} :
    testName? heading = some name ↔ heading = "Test: " ++ name := by
  rw [← String.toList_inj, String.toList_append]
  unfold testName?
  split
  · rename_i cs hcs
    rw [hcs, Option.some_inj, ← String.toList_inj, String.toList_ofList]
    simp
  · rename_i hne
    simp only [reduceCtorEq, false_iff]
    intro h
    exact hne name.toList h

namespace Aspect

theorem language_injective : Function.Injective language := by
  intro a b h
  cases a <;> cases b <;> first | rfl | exact absurd h (by decide)

theorem ofLanguage?_language (aspect : Aspect) : ofLanguage? aspect.language = some aspect := by
  cases aspect <;> decide

theorem language_of_ofLanguage? {language : String} {aspect : Aspect}
    (h : ofLanguage? language = some aspect) : aspect.language = language := by
  have hfound := List.find?_some h
  exact eq_of_beq hfound

end Aspect

/-! ## Texts without the line ends at their end -/

/-- The second text is the first without the line ends at its end. -/
def Trimmed (content text : String) : Prop :=
  (∃ n, content.toList = text.toList ++ List.replicate n '\n') ∧ text.toList.getLast? ≠ some '\n'

/-- A text of line ends only. -/
def IsBlank (content : String) : Prop := ∀ c ∈ content.toList, c = '\n'

theorem trimmed_iff {content text : String} :
    Trimmed content text ↔ text = dropNewlines content := by
  have hdrop : (dropNewlines content).toList
      = (content.toList.reverse.dropWhile (· == '\n')).reverse := by
    rw [dropNewlines, String.toList_ofList, Markdown.dropEndWhile]
  rw [← String.toList_inj, hdrop, Trimmed]
  constructor
  · rintro ⟨⟨n, hn⟩, hlast⟩
    rw [hn, List.reverse_append, List.reverse_replicate, List.dropWhile_append_of_pos (by simp),
      ← List.reverse_eq_iff]
    cases hrev : text.toList.reverse with
    | nil => rfl
    | cons c cs =>
      rw [List.getLast?_eq_head?_reverse, hrev] at hlast
      rw [List.dropWhile_cons_of_neg (by simpa using hlast)]
  · intro h
    rw [h, List.getLast?_reverse]
    constructor
    · refine ⟨(content.toList.reverse.takeWhile (· == '\n')).length, ?_⟩
      have hall : content.toList.reverse.takeWhile (· == '\n')
          = List.replicate (content.toList.reverse.takeWhile (· == '\n')).length '\n' :=
        List.eq_replicate_of_mem fun c hc => by simpa using List.mem_takeWhile_imp hc
      rw [← List.reverse_replicate, ← hall, ← List.reverse_append, List.takeWhile_append_dropWhile,
        List.reverse_reverse]
    · intro hhead
      have := List.head?_dropWhile_not (· == '\n') content.toList.reverse
      simp [hhead] at this

theorem dropNewlines_eq_empty_iff {content : String} :
    dropNewlines content = "" ↔ IsBlank content := by
  rw [dropNewlines, ← String.toList_inj, String.toList_ofList, Markdown.dropEndWhile]
  simp [List.dropWhile_eq_nil_iff, IsBlank]

/-! ## One more block -/

namespace Fence

/-- Does a block hold the input of a test? -/
def isInput (f : Fence) : Bool := f.language == "ember-tree"

/-- Does a block say what a test expects? -/
def isExpectation (f : Fence) : Bool := ["diagnostics", "tree", "symbols"].contains f.language

/-- An assertion says what a block does. Only what is expected of a tree is read further. -/
structure Expects (f : Fence) (a : Assertion) : Prop where
  language : a.aspect.language = f.language
  content : Trimmed f.content a.content
  line : a.line = f.line
  pattern : if a.aspect = .tree then ∃ d, Datum.read a.content = .ok d ∧ a.pattern = some d
    else a.pattern = none

variable {f : Fence}

theorem isInput_iff : f.isInput ↔ f.language = inputLanguage := by
  simp [isInput, inputLanguage]

theorem isExpectation_iff : f.isExpectation ↔ ∃ aspect : Aspect, aspect.language = f.language := by
  have hall : f.isExpectation ↔
      f.language = "diagnostics" ∨ f.language = "tree" ∨ f.language = "symbols" := by
    simp [isExpectation]
  rw [hall]
  constructor
  · rintro (h | h | h)
    · exact ⟨.diagnostics, h.symm⟩
    · exact ⟨.tree, h.symm⟩
    · exact ⟨.symbols, h.symm⟩
  · rintro ⟨aspect, h⟩
    rw [← h]
    cases aspect <;> decide

theorem Expects.isExpectation {a} (h : f.Expects a) : f.isExpectation :=
  isExpectation_iff.2 ⟨a.aspect, h.language⟩

/-- No block is of two kinds. -/
theorem isInput_eq_false (h : f.isExpectation) : f.isInput = false := by
  obtain ⟨aspect, haspect⟩ := isExpectation_iff.1 h
  rw [isInput, ← haspect]
  cases aspect <;> decide

/-- Whatever is expected can be said by an assertion, unless a tree cannot be read. -/
theorem exists_expects_iff : (∃ a, f.Expects a) ↔ f.isExpectation ∧
    (f.language = "tree" → ∃ text d, Trimmed f.content text ∧ Datum.read text = .ok d) := by
  constructor
  · rintro ⟨a, ha⟩
    refine ⟨ha.isExpectation, fun htree => ?_⟩
    have haspect : a.aspect = .tree := Aspect.language_injective (ha.language.trans htree)
    obtain ⟨d, hd, -⟩ := (if_pos haspect ▸ ha.pattern :)
    exact ⟨a.content, d, ha.content, hd⟩
  · rintro ⟨h, hread⟩
    obtain ⟨aspect, haspect⟩ := isExpectation_iff.1 h
    by_cases htree : aspect = .tree
    · obtain ⟨text, d, htext, hd⟩ := hread (haspect ▸ htree ▸ rfl)
      exact ⟨⟨aspect, text, f.line, some d⟩, haspect, htext, rfl, by simp [htree, hd]⟩
    · exact ⟨⟨aspect, dropNewlines f.content, f.line, none⟩, haspect, trimmed_iff.2 rfl, rfl,
        by simp [htree]⟩

end Fence

variable {f : Fence} {fs : List Fence} {c c' : Case}

theorem Case.expect_eq_ok_iff {aspect} {content : String} {line : Nat} :
    c.expect aspect content line = .ok c' ↔
      ∃ a : Assertion, (a.aspect = aspect ∧ a.content = content ∧ a.line = line ∧
        if aspect = .tree then ∃ d, Datum.read content = .ok d ∧ a.pattern = some d
        else a.pattern = none) ∧ c' = { c with assertions := c.assertions ++ [a] } := by
  constructor
  · intro h
    cases aspect with
    | tree =>
      cases hread : Datum.read content with
      | error e => simp [Case.expect, hread, bind, Except.bind, throw, throwThe,
          MonadExceptOf.throw] at h
      | ok d =>
        simp only [Case.expect, hread] at h
        cases h
        exact ⟨_, ⟨rfl, rfl, rfl, d, rfl, rfl⟩, rfl⟩
    | diagnostics | symbols =>
      cases h
      exact ⟨_, ⟨rfl, rfl, rfl, by simp⟩, rfl⟩
  · rintro ⟨⟨aspect, content, line, pattern⟩, ⟨rfl, rfl, rfl, hpattern⟩, rfl⟩
    cases aspect with
    | tree =>
      obtain ⟨d, hd, rfl : pattern = some d⟩ := (if_pos rfl ▸ hpattern :)
      simp only [Case.expect, hd]
      rfl
    | diagnostics | symbols =>
      obtain rfl : pattern = none := by simpa using hpattern
      rfl

/-- A block without a language means nothing. -/
theorem Case.addFence_plain (hl : f.language = "") :
    c.addFence f.language f.content f.line = .ok c := by
  rw [hl]
  rfl

/-- The input is taken if there is none but line ends. -/
theorem Case.addFence_input (hi : f.isInput) : c.addFence f.language f.content f.line = .ok c' ↔
    c.input = "" ∧ { c with input := dropNewlines f.content, inputLine := f.line } = c' := by
  rw [Case.addFence, if_pos (Fence.isInput_iff.1 hi)]
  by_cases hempty : c.input = "" <;> simp [hempty]

/-- What a block expects is added, if it can be read. -/
theorem Case.addFence_expectation (he : f.isExpectation) :
    c.addFence f.language f.content f.line = .ok c' ↔
      ∃ a, f.Expects a ∧ c' = { c with assertions := c.assertions ++ [a] } := by
  have hne : f.language ≠ inputLanguage := by simp [← Fence.isInput_iff, Fence.isInput_eq_false he]
  obtain ⟨aspect, haspect⟩ := Fence.isExpectation_iff.1 he
  rw [Case.addFence, if_neg hne, ← haspect, Aspect.ofLanguage?_language]
  simp only [Case.expect_eq_ok_iff]
  refine exists_congr fun a => and_congr_left fun _ => ?_
  constructor
  · rintro ⟨rfl, hcontent, hline, hpattern⟩
    exact ⟨haspect, trimmed_iff.2 hcontent, hline, hcontent ▸ hpattern⟩
  · rintro ⟨hlanguage, hcontent, hline, hpattern⟩
    obtain rfl := Aspect.language_injective (hlanguage.trans haspect.symm)
    exact ⟨rfl, trimmed_iff.1 hcontent, hline, trimmed_iff.1 hcontent ▸ hpattern⟩

/-- A block with any other language is refused. -/
theorem Case.addFence_unknown (hl : f.language ≠ "") (hi : f.isInput = false)
    (he : f.isExpectation = false) : c.addFence f.language f.content f.line ≠ .ok c' := by
  have hne : f.language ≠ inputLanguage := by simp [← Fence.isInput_iff, hi]
  have hnone : Aspect.ofLanguage? f.language = none := by
    by_contra hsome
    obtain ⟨aspect, haspect⟩ := Option.ne_none_iff_exists'.1 hsome
    have := Fence.isExpectation_iff.2 ⟨aspect, Aspect.language_of_ofLanguage? haspect⟩
    simp [he] at this
  simp [Case.addFence, if_neg hne, hnone, hl]

/-! ## The blocks of a section -/

/-- What the inputs among the blocks of a section make of the input of a test: the last of them
counts, and those before it are blank. -/
def Takes (inputs : List Fence) (c c' : Case) : Prop :=
  (inputs = [] ∧ c'.input = c.input ∧ c'.inputLine = c.inputLine) ∨
  ∃ blanks f, inputs = blanks ++ [f] ∧ c.input = "" ∧ (∀ g ∈ blanks, IsBlank g.content) ∧
    Trimmed f.content c'.input ∧ c'.inputLine = f.line

/-- What the blocks of a section make of a test. -/
@[mk_iff]
structure Grows (fs : List Fence) (c c' : Case) : Prop where
  name : c'.name = c.name
  known : ∀ f ∈ fs, f.language ≠ "" → f.isInput ∨ f.isExpectation
  input : Takes (fs.filter Fence.isInput) c c'
  assertions : ∃ as, List.Forall₂ Fence.Expects (fs.filter Fence.isExpectation) as ∧
    c'.assertions = c.assertions ++ as

theorem takes_cons : Takes (f :: fs) c c' ↔ c.input = "" ∧
    Takes fs { c with input := dropNewlines f.content, inputLine := f.line } c' := by
  constructor
  · rintro (⟨h, -⟩ | ⟨blanks, g, heq, hempty, hblanks, htext, hline⟩)
    · cases h
    · refine ⟨hempty, ?_⟩
      cases blanks with
      | nil =>
        obtain ⟨rfl, rfl⟩ := List.cons_eq_cons.1 heq
        exact .inl ⟨rfl, trimmed_iff.1 htext, hline⟩
      | cons b blanks =>
        obtain ⟨rfl, rfl⟩ := List.cons_eq_cons.1 heq
        obtain ⟨hb, hblanks⟩ := List.forall_mem_cons.1 hblanks
        exact .inr ⟨blanks, g, rfl, dropNewlines_eq_empty_iff.2 hb, hblanks, htext, hline⟩
  · rintro ⟨hempty, ⟨rfl, htext, hline⟩ | ⟨blanks, g, rfl, hblank, hblanks, htext, hline⟩⟩
    · exact .inr ⟨[], f, rfl, hempty, by simp, trimmed_iff.2 htext, hline⟩
    · refine .inr ⟨f :: blanks, g, rfl, hempty, List.forall_mem_cons.2 ⟨?_, hblanks⟩, htext, hline⟩
      exact dropNewlines_eq_empty_iff.1 hblank

theorem grows_nil : Grows [] c c' ↔ c' = c := by
  constructor
  · rintro ⟨hname, -, ⟨-, hinput, hline⟩ | ⟨blanks, f, hnil, -⟩, as, has, hassertions⟩
    · obtain rfl : as = [] := List.forall₂_nil_left_iff.1 has
      cases c
      cases c'
      simp_all
    · simp at hnil
  · rintro rfl
    exact ⟨rfl, by simp, .inl ⟨rfl, rfl, rfl⟩, [], .nil, by simp⟩

/-- The blocks of a section are added one after the other. -/
theorem grows_cons : Grows (f :: fs) c c' ↔
    ∃ c₁, c.addFence f.language f.content f.line = .ok c₁ ∧ Grows fs c₁ c' := by
  simp only [grows_iff, List.forall_mem_cons]
  by_cases hl : f.language = ""
  · have hi : f.isInput = false := by simp [Fence.isInput, hl]
    have he : f.isExpectation = false := by simp [Fence.isExpectation, hl]
    rw [Case.addFence_plain hl]
    simp [hi, he, hl]
  cases he : f.isExpectation with
  | true =>
    rw [List.filter_cons_of_neg (by simp [Fence.isInput_eq_false he]), List.filter_cons_of_pos he]
    simp only [Case.addFence_expectation he, List.forall₂_cons_left_iff]
    constructor
    · rintro ⟨hname, ⟨-, hknown⟩, hinput, -, ⟨a, as, ha, has, rfl⟩, hassertions⟩
      exact ⟨_, ⟨a, ha, rfl⟩, hname, hknown, hinput, as, has, by simp [hassertions]⟩
    · rintro ⟨_, ⟨a, ha, rfl⟩, hname, hknown, hinput, as, has, hassertions⟩
      exact ⟨hname, ⟨fun _ => .inr trivial, hknown⟩, hinput, _, ⟨a, as, ha, has, rfl⟩,
        by simp [hassertions]⟩
  | false =>
    cases hi : f.isInput with
    | true => simp [Case.addFence_input hi, hi, he, takes_cons, and_left_comm, and_assoc]
    | false => simp [Case.addFence_unknown hl hi he, hl]

/-! ## The sections of a document -/

namespace Section

variable {s : Section}

/-- The blocks with inputs. -/
def inputs (s : Section) : List Fence := s.fences.filter Fence.isInput

/-- The blocks that say what is expected. -/
def expectations (s : Section) : List Fence := s.fences.filter Fence.isExpectation

/-- A section makes a test: all languages in it are known, it has an input that is not blank, no
other input but blank ones before that, and something is expected, with trees that can be read. -/
structure Runnable (s : Section) : Prop where
  known : ∀ f ∈ s.fences, f.language ≠ "" → f.isInput ∨ f.isExpectation
  input : ∃ blanks f, s.inputs = blanks ++ [f] ∧ (∀ g ∈ blanks, IsBlank g.content) ∧
    ¬ IsBlank f.content
  asserted : s.expectations ≠ []
  trees : ∀ f ∈ s.fences, f.language = "tree" →
    ∃ text d, Trimmed f.content text ∧ Datum.read text = .ok d

/-- A test is that of a section. -/
structure Gives (s : Section) (c : Case) : Prop where
  name : c.name = s.name
  input : ∃ f, s.inputs.getLast? = some f ∧ Trimmed f.content c.input ∧ c.inputLine = f.line
  assertions : List.Forall₂ Fence.Expects s.expectations c.assertions

/-- A section leads to a test that is complete. -/
def Completes (s : Section) (c : Case) : Prop :=
  Grows s.fences { name := s.name } c ∧ c.input ≠ "" ∧ c.assertions ≠ []

theorem Completes.gives (h : s.Completes c) : s.Gives c := by
  obtain ⟨⟨hname, -, hinput, as, has, hassertions⟩, hne, -⟩ := h
  obtain rfl : c.assertions = as := hassertions
  refine ⟨hname, ?_, has⟩
  rcases hinput with ⟨-, hempty, -⟩ | ⟨blanks, f, hinputs, -, -, htext, hline⟩
  · exact absurd hempty hne
  · exact ⟨f, by simp [inputs, hinputs], htext, hline⟩

theorem exists_completes_iff : (∃ c, s.Completes c) ↔ s.Runnable := by
  constructor
  · rintro ⟨c, ⟨-, hknown, hinput, as, has, hassertions⟩, hne, hsome⟩
    obtain rfl : c.assertions = as := hassertions
    refine ⟨hknown, ?_, ?_, fun f hf htree => ?_⟩
    · rcases hinput with ⟨-, hempty, -⟩ | ⟨blanks, f, hinputs, -, hblanks, htext, -⟩
      · exact absurd hempty hne
      · refine ⟨blanks, f, hinputs, hblanks, fun hblank => hne ?_⟩
        rw [trimmed_iff.1 htext, dropNewlines_eq_empty_iff.2 hblank]
    · rintro hnil
      rw [show s.fences.filter Fence.isExpectation = [] from hnil] at has
      exact hsome (List.forall₂_nil_left_iff.1 has)
    · have he : f.isExpectation := Fence.isExpectation_iff.2 ⟨.tree, htree.symm⟩
      obtain ⟨a, -, ha⟩ := exists_of_forall₂_left has (List.mem_filter.2 ⟨hf, he⟩)
      exact (Fence.exists_expects_iff.1 ⟨a, ha⟩).2 htree
  · rintro ⟨hknown, ⟨blanks, f, hinputs, hblanks, hne⟩, hsome, htrees⟩
    have hexpects : ∀ f ∈ s.expectations, ∃ a, f.Expects a := fun f hf => by
      obtain ⟨hf, he⟩ := List.mem_filter.1 hf
      exact Fence.exists_expects_iff.2 ⟨he, htrees f hf⟩
    obtain ⟨as, has⟩ := exists_forall₂_iff.2 hexpects
    refine ⟨⟨s.name, dropNewlines f.content, f.line, as⟩, ⟨rfl, hknown, .inr ?_, as, has, rfl⟩,
      ?_, ?_⟩
    · exact ⟨blanks, f, hinputs, rfl, hblanks, trimmed_iff.2 rfl, rfl⟩
    · exact fun hempty => hne (dropNewlines_eq_empty_iff.1 hempty)
    · rintro (rfl : as = [])
      exact hsome (List.forall₂_nil_right_iff.1 has)

end Section

theorem complete_some_eq_ok_iff {done cs} : complete done (some c) = .ok cs ↔
    (c.input ≠ "" ∧ c.assertions ≠ []) ∧ done ++ [c] = cs := by
  by_cases hinput : c.input = ""
  · simp [complete, Case.check, hinput, bind, Except.bind]
  · by_cases hassertions : c.assertions = [] <;>
      simp [complete, Case.check, hinput, hassertions, bind, Except.bind, pure, Except.pure]

theorem checkOutside_eq_ok_iff (language : String) (line : Nat) :
    checkOutside language line = .ok () ↔ language = "" := by
  unfold checkOutside
  by_cases h : language = ""
  · simp [h]
  · by_cases hknown : isKnown language <;> simp [h, hknown]

/-- From within a section: its blocks complete the test at hand, and each section behind it makes
another. -/
theorem casesFrom_some_eq_ok_iff {done cs blocks} :
    casesFrom done (some c) blocks = .ok cs ↔
      ∃ c' cs', (Grows (sections blocks).1 c c' ∧ c'.input ≠ "" ∧ c'.assertions ≠ []) ∧
        done ++ c' :: cs' = cs ∧ List.Forall₂ Section.Completes (sections blocks).2 cs' := by
  induction blocks generalizing done c with
  | nil =>
    have hend : casesFrom done (some c) [] = .ok cs ↔ complete done (some c) = .ok cs := by
      rw [casesFrom]
      cases complete done (some c) <;> simp [Except.mapError]
    rw [hend, complete_some_eq_ok_iff]
    simp only [sections, grows_nil, List.forall₂_nil_left_iff]
    constructor
    · rintro ⟨h, rfl⟩
      exact ⟨c, [], ⟨rfl, h⟩, rfl, rfl⟩
    · rintro ⟨_, _, ⟨rfl, h⟩, rfl, rfl⟩
      exact ⟨h, rfl⟩
  | cons block rest ih =>
    cases block with
    | heading text =>
      cases hname : testName? text with
      | none =>
        simp only [casesFrom, sections, hname]
        exact ih
      | some name =>
        -- the test at hand has all its blocks, and the next one has none yet
        simp only [casesFrom, sections, hname, grows_nil]
        cases hdone : complete done (some c) with
        | error e =>
          simp only [reduceCtorEq, false_iff]
          rintro ⟨_, _, ⟨rfl, h⟩, -⟩
          cases hdone.symm.trans (complete_some_eq_ok_iff.2 ⟨h, rfl⟩)
        | ok done' =>
          obtain ⟨h, rfl⟩ := complete_some_eq_ok_iff.1 hdone
          simp only [ih]
          constructor
          · rintro ⟨c', cs', hcompletes, rfl, hrest⟩
            exact ⟨c, c' :: cs', ⟨rfl, h⟩, by simp, .cons hcompletes hrest⟩
          · rintro ⟨_, _, ⟨rfl, -⟩, rfl, hrest⟩
            cases hrest with
            | cons hcompletes hrest => exact ⟨_, _, hcompletes, by simp, hrest⟩
    | fence language content line =>
      simp only [casesFrom, sections, grows_cons]
      cases c.addFence language content line with
      | error e => simp
      | ok c₁ => simp [ih]

/-- From before the first section. -/
theorem casesFrom_none_eq_ok_iff {done cs blocks} :
    casesFrom done none blocks = .ok cs ↔
      (∀ f ∈ (sections blocks).1, f.language = "") ∧
        ∃ cs', done ++ cs' = cs ∧ List.Forall₂ Section.Completes (sections blocks).2 cs' := by
  induction blocks with
  | nil => simp [casesFrom, complete, sections, Except.mapError]
  | cons block rest ih =>
    cases block with
    | heading text =>
      cases hname : testName? text with
      | none =>
        simp only [casesFrom, sections, hname]
        exact ih
      | some name =>
        simp only [casesFrom, sections, hname, complete, casesFrom_some_eq_ok_iff]
        constructor
        · rintro ⟨c, cs', hcompletes, rfl, hrest⟩
          exact ⟨by simp, c :: cs', rfl, .cons hcompletes hrest⟩
        · rintro ⟨-, _, rfl, hrest⟩
          cases hrest with
          | cons hcompletes hrest => exact ⟨_, _, hcompletes, rfl, hrest⟩
    | fence language content line =>
      simp only [casesFrom, sections, List.forall_mem_cons, ← checkOutside_eq_ok_iff language line]
      cases checkOutside language line with
      | error e => simp
      | ok => simpa using ih

/-- A document holds tests that can be run if and only if no fenced block before the first test
heading has a language and each section makes a test; and then it holds just those tests, in their
order. -/
theorem cases_exact (blocks : List Block) :
    (∀ heading name, testName? heading = some name ↔ heading = "Test: " ++ name) ∧
    ((∃ cs, casesFrom [] none blocks = .ok cs) ↔
      (∀ f ∈ (sections blocks).1, f.language = "") ∧ ∀ s ∈ (sections blocks).2, s.Runnable) ∧
    ∀ cs, casesFrom [] none blocks = .ok cs →
      List.Forall₂ Section.Gives (sections blocks).2 cs := by
  simp only [casesFrom_none_eq_ok_iff, List.nil_append]
  refine ⟨fun _ _ => testName?_eq_some_iff, ?_, ?_⟩
  · simp only [← Section.exists_completes_iff, ← exists_forall₂_iff]
    simp
  · rintro cs ⟨-, _, rfl, h⟩
    exact h.imp fun _ _ => Section.Completes.gives

/-- Two inputs in one section: the first is blank and gives way. -/
theorem cases_two_inputs :
    ∃ text, (sections (Markdown.blocks text)).2.map (·.inputs.length) = [2] ∧
      (cases text).toOption.map (·.map Case.input) = some ["(program)"] :=
  ⟨"# Test: a\n\n```ember-tree\n```\n\n```ember-tree\n(program)\n```\n\n```diagnostics\n```\n",
    by cbv, by cbv⟩

end TreeSema.Golden
