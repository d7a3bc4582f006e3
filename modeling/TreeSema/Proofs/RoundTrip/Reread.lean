import Mathlib
import TreeSema.Proofs.RoundTrip.Program
import TreeSema.Proofs.RoundTrip.Source

/-!
# Trees that were read, written and read again

The reader of trees takes an operator from a string as well as from a symbol, and cuts a qualified
name into segments whatever these are. The writer writes both bare. So a tree that was read comes
back from its text if its operators and identifiers can be written bare, and may not if they cannot.

* `Node.read_render_of_read`: a tree that was read and is worded well is read as it was written.
* `not_read_render_of_read`: an operator of two words, a segment that starts with a digit and a
  segment called `true` are lost.
-/
namespace TreeSema

open Text (Pos)

namespace Node

/-- The operator of a node, where it has one, satisfies `op`, and the name of an identifier satisfies
`word`. -/
structure Worded (op word : String → Prop) (n : Node) : Prop where
  operator : n.kind? ∈ [some .binary, some .assign, some .unary] → op n.head.op
  identifier : n.kind? = some .ident → word n.head.name.text

/-- A tree built by the rules is built by those for its own words. -/
theorem Formed.reworded {op word op' word' word'' text : String → Prop} {size : Nat → Prop}
    {n : Node} (hn : n.Formed op word text size) (h : n.Every (Worded op' word'))
    (hword : ∀ s, word s → word' s → word'' s) : n.Formed op' word'' text size := by
  induction hn with
  | operands isKind count _ ih =>
    exact .operands isKind count fun c hc => ih c hc ((every_mk.1 h).2.1 c hc)
  | moduleDef isName _ ih => exact .moduleDef isName fun c hc => ih c hc ((every_mk.1 h).2.1 c hc)
  | record isKind isName fields => exact .record isKind isName fields
  | enumDef isName items => exact .enumDef isName items
  | variantDef isName isSize items => exact .variantDef isName isSize items
  | funcDef isName items result isBlock _ ih =>
    exact .funcDef isName items result isBlock fun hb => ih hb (every_mk.1 h).2.2.2
  | aliasDef isName target => exact .aliasDef isName target
  | varDef isKind isName notMut declared count _ ih =>
    exact .varDef isKind isName notMut declared count fun c hc => ih c hc ((every_mk.1 h).2.1 c hc)
  | int fits declared => exact .int fits declared
  | float real => exact .float real
  | str isText => exact .str isText
  | bool => exact .bool
  | ident isWord => exact .ident (hword _ isWord ((every_mk.1 h).1.identifier rfl))
  | binary isKind _ _ _ iha ihb =>
    obtain ⟨hhere, hbelow, -⟩ := every_mk.1 h
    simp only [List.forall_mem_cons] at hbelow
    refine .binary isKind (hhere.operator ?_) (iha hbelow.1) (ihb hbelow.2.1)
    simp only [List.mem_cons, List.not_mem_nil, or_false] at isKind
    rcases isKind with rfl | rfl <;> simp [kind?]
  | unary _ _ ih =>
    obtain ⟨hhere, hbelow, -⟩ := every_mk.1 h
    exact .unary (hhere.operator (by simp [kind?])) (ih (hbelow _ (by simp)))
  | ref _ ih => exact .ref (ih ((every_mk.1 h).2.1 _ (by simp)))
  | call isName _ ih => exact .call isName fun c hc => ih c hc ((every_mk.1 h).2.1 c hc)
  | namedCall isName keys _ ih =>
    exact .namedCall isName keys fun f hf => ih f hf ((every_mk.1 h).2.2.1 f hf)
  | lit isName keys _ ih => exact .lit isName keys fun f hf => ih f hf ((every_mk.1 h).2.2.1 f hf)
  | access isKind _ _ iha ihb =>
    have hbelow := (every_mk.1 h).2.1
    simp only [List.forall_mem_cons] at hbelow
    exact .access isKind (iha hbelow.1) (ihb hbelow.2.1)
  | cast target _ ih => exact .cast target (ih ((every_mk.1 h).2.1 _ (by simp)))
  | literal declared keys _ ih =>
    exact .literal declared keys fun f hf => ih f hf ((every_mk.1 h).2.2.1 f hf)
  | typedCall result callee _ ih =>
    exact .typedCall result callee fun c hc => ih c hc ((every_mk.1 h).2.1 c hc)
  | namedTypedCall result callee keys _ ih =>
    exact .namedTypedCall result callee keys fun f hf => ih f hf ((every_mk.1 h).2.2.1 f hf)

/-- A tree that was read is read as it is written, up to locations, if each operator is a symbol and
each identifier is one by itself, without a doubled colon and other than `true` and `false`. -/
theorem read_render_of_read {src unit : String} {n : Node} (h : read src unit = .ok n)
    (hwords : n.Every (Worded IsSymbol IsIdentifier)) :
    ∃ n', read n.render unit = .ok n' ∧ n'.unplaced = n.unplaced := by
  have hformed := (sourced_of_read h).1.reworded hwords fun _ _ hident => hident
  exact read_of_toDatum hformed (kind?_of_read h) rfl unit

/-- An access path of two identifiers, at a place of its own. -/
def identPath (a b : String) (loc : Location) : Node :=
  .ofChildren { kind := .path, loc }
    [.leaf { kind := .ident, loc, name := .name a }, .leaf { kind := .ident, loc, name := .name b }]

/-- An operator given as a string and a qualified name. -/
theorem read_render_of_read_quotedOperator :
    ∃ n, read "(program (binary \"+\" a::b 1))" "" = .ok n ∧
      n.Every (Worded IsSymbol IsIdentifier) ∧
      ∃ n', read n.render "" = .ok n' ∧ n'.unplaced = n.unplaced := by
  have hread : read "(program (binary \"+\" a::b 1))" "" = .ok
      (.ofChildren { kind := .program, loc := ⟨"", 1, 1⟩ }
        [.ofChildren { kind := .binary, loc := ⟨"", 1, 10⟩, op := "+" }
          [identPath "a" "b" ⟨"", 1, 22⟩,
           .leaf { kind := .int, loc := ⟨"", 1, 27⟩, integer := 1 }]]) := by cbv
  have hplus : IsSymbol "+" := by decide
  have ha : IsIdentifier "a" := ⟨⟨by decide, by decide⟩, by decide, by decide⟩
  have hb : IsIdentifier "b" := ⟨⟨by decide, by decide⟩, by decide, by decide⟩
  refine ⟨_, hread, (fun hwords => ⟨hwords, read_render_of_read hread hwords⟩) ?_⟩
  simp only [ofChildren, identPath, leaf, every_mk, List.forall_mem_cons, List.not_mem_nil,
    false_implies, implies_true, every_absent, and_true]
  refine ⟨⟨?_, ?_⟩, ⟨?_, ?_⟩, ⟨⟨?_, ?_⟩, ⟨?_, ?_⟩, ⟨?_, ?_⟩⟩, ⟨?_, ?_⟩⟩
  all_goals simp [kind?, Node.head, Ident.text, hplus, ha, hb]

end Node

/-! ## What is lost -/

/-- The kinds of what is two levels below the root. -/
def kindsBelow (n : Node) : List (List (Option Kind)) :=
  n.children.map fun c => c.children.map Node.kind?

theorem kindsBelow_unplaced (n : Node) : kindsBelow n.unplaced = kindsBelow n := by
  cases n with
  | absent => rfl
  | mk h cs fs b =>
    simp only [kindsBelow, Node.unplaced, Node.children, Node.unplacedAll_eq_map, List.map_map]
    refine List.map_congr_left fun c _ => ?_
    cases c with
    | absent => rfl
    | mk h cs fs b =>
      simp only [Function.comp_apply, Node.unplaced, Node.unplacedAll_eq_map, List.map_map]
      exact List.map_congr_left fun c _ => Node.kind?_unplaced c

/-- The tree of a text is lost when it is written: its text is not read, or is read as another. -/
def Lost (src : String) : Prop :=
  ∃ n, Node.read src "" = .ok n ∧ ∀ n', Node.read n.render "" = .ok n' → n'.unplaced ≠ n.unplaced

theorem lost_of_kindsBelow {src text : String} {n n' : Node} (hread : Node.read src "" = .ok n)
    (hrender : n.render = text) (hreread : Node.read text "" = .ok n')
    (hkinds : kindsBelow n' ≠ kindsBelow n) : Lost src := by
  subst hrender
  refine ⟨n, hread, fun n₁ hn₁ hsame => hkinds ?_⟩
  cases hreread.symm.trans hn₁
  rw [← kindsBelow_unplaced n', hsame, kindsBelow_unplaced]

/-- An operator of two words is written as two. -/
theorem lost_operator : Lost "(program (unary \"a b\" x))" := by
  have hread : Node.read "(program (unary \"a b\" x))" "" = .ok
      (.ofChildren { kind := .program, loc := ⟨"", 1, 1⟩ }
        [.ofChildren { kind := .unary, loc := ⟨"", 1, 10⟩, op := "a b" }
          [.leaf { kind := .ident, loc := ⟨"", 1, 23⟩, name := .name "x" }]]) := by cbv
  have hreread : (Node.read "(program\n  (unary a b x))" "").isOk = false := by cbv
  refine ⟨_, hread, fun n' hn' => ?_⟩
  change Node.read "(program\n  (unary a b x))" "" = .ok n' at hn'
  rw [hn'] at hreread
  cases hreread

/-- A segment that starts with a digit is written as a number and a word. -/
theorem lost_digit : Lost "(program a::5x)" := by
  have hread : Node.read "(program a::5x)" "" = .ok
      (.ofChildren { kind := .program, loc := ⟨"", 1, 1⟩ } [.identPath "a" "5x" ⟨"", 1, 10⟩]) := by
    cbv
  have hreread : Node.read "(program\n  (path a 5x))" "" = .ok
      (.ofChildren { kind := .program, loc := ⟨"", 1, 1⟩ }
        [.ofChildren { kind := .path, loc := ⟨"", 2, 3⟩ }
          [.ofChildren { kind := .path, loc := ⟨"", 2, 3⟩ }
            [.leaf { kind := .ident, loc := ⟨"", 2, 9⟩, name := .name "a" },
             .leaf { kind := .int, loc := ⟨"", 2, 11⟩, integer := 5 }],
           .leaf { kind := .ident, loc := ⟨"", 2, 12⟩, name := .name "x" }]]) := by cbv
  exact lost_of_kindsBelow hread rfl hreread (by decide)

/-- A segment called `true` is written as a truth value. -/
theorem lost_truth : Lost "(program true::x)" := by
  have hread : Node.read "(program true::x)" "" = .ok
      (.ofChildren { kind := .program, loc := ⟨"", 1, 1⟩ }
        [.identPath "true" "x" ⟨"", 1, 10⟩]) := by cbv
  have hreread : Node.read "(program\n  (path true x))" "" = .ok
      (.ofChildren { kind := .program, loc := ⟨"", 1, 1⟩ }
        [.ofChildren { kind := .path, loc := ⟨"", 2, 3⟩ }
          [.leaf { kind := .bool, loc := ⟨"", 2, 9⟩, truth := true },
           .leaf { kind := .ident, loc := ⟨"", 2, 14⟩, name := .name "x" }]]) := by cbv
  exact lost_of_kindsBelow hread rfl hreread (by decide)

theorem not_read_render_of_read :
    (¬ ∀ (src unit : String) (n : Node), Node.read src unit = .ok n →
      ∃ n', Node.read n.render unit = .ok n' ∧ n'.unplaced = n.unplaced) ∧
    Lost "(program (unary \"a b\" x))" ∧ Lost "(program a::5x)" ∧ Lost "(program true::x)" := by
  refine ⟨fun h => ?_, lost_operator, lost_digit, lost_truth⟩
  obtain ⟨n, hread, hlost⟩ := lost_operator
  obtain ⟨n', hread', hsame⟩ := h _ _ n hread
  exact hlost n' hread' hsame

end TreeSema
