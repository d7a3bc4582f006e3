import TreeSema.Proofs.Following
import TreeSema.Proofs.Course.Visits

/-!
# Aliases that lead into a cycle

An alias leads to its target, which may be the name of another alias, and so on. Following aliases
keeps a list of those already seen and gives up when one of them comes again; the list can only grow
as long as there are aliases left, so that nothing but a cycle makes it give up.

The chain that starts at an alias comes back to the alias itself, or it runs into a cycle further on
and never comes back. A declaration reports the alias in both cases, although it says that the alias
refers to itself.

* `Symbols.ComesBack`: following aliases from a type comes back to the alias that it names.
* `Symbols.aliasLoops_iff`: there is no end just if an alias on the way comes back to itself.
* `Analysis.selfAlias_reported`: what a declaration reports, and when it is right to do so.
-/
namespace TreeSema

namespace Symbols

variable {t : Symbols} {ty next : Ty} {key : List Ident}

/-! ## Chains -/

/-- A type names an alias, and this is its target. -/
def Unfolds (t : Symbols) (ty next : Ty) : Prop := ∃ key, t.aliasStep? ty = some (key, next)

/-- The alias that a type names. -/
def alias? (t : Symbols) (ty : Ty) : Option (List Ident) := (t.aliasStep? ty).map (·.1)

/-- Following aliases from a type comes back to the alias that the type names. -/
def ComesBack (t : Symbols) (ty : Ty) : Prop :=
  ∃ key, t.alias? ty = some key ∧
    ∃ again, Relation.TransGen t.Unfolds ty again ∧ t.alias? again = some key

theorem alias?_of_step (h : t.aliasStep? ty = some (key, next)) : t.alias? ty = some key := by
  rw [alias?, h, Option.map_some]

/-- An alias has one target. -/
theorem Unfolds.eq (h : t.aliasStep? ty = some (key, next)) {other : Ty} (h' : t.Unfolds ty other) :
    other = next := by
  obtain ⟨key', h'⟩ := h'
  rw [h] at h'
  cases h'
  rfl

/-- An alias on a chain is named by a type that following comes to. -/
theorem reaches_of_chain {keys v} (h : Alias.Chain t.aliasStep? ty keys v) (hkey : key ∈ keys) :
    ∃ again, Relation.ReflTransGen t.Unfolds ty again ∧ t.alias? again = some key := by
  induction h with
  | done ty => cases hkey
  | next first _ ih =>
    rcases List.mem_cons.1 hkey with rfl | hkey
    · exact ⟨_, .refl, alias?_of_step first⟩
    · obtain ⟨again, hreach, hagain⟩ := ih hkey
      exact ⟨again, hreach.head ⟨_, first⟩, hagain⟩

theorem chain_of_reaches {v} (h : Relation.ReflTransGen t.Unfolds ty v) :
    ∃ keys, Alias.Chain t.aliasStep? ty keys v := by
  induction h using Relation.ReflTransGen.head_induction_on with
  | refl => exact ⟨[], .done _⟩
  | head hstep _ ih =>
    obtain ⟨key, hstep⟩ := hstep
    obtain ⟨keys, hchain⟩ := ih
    exact ⟨key :: keys, .next hstep hchain⟩

/-- Following aliases from a type comes to no end just if an alias on the way comes back to itself. -/
theorem aliasLoops_iff : t.aliasLoops ty = true ↔
    ∃ met, Relation.ReflTransGen t.Unfolds ty met ∧ t.ComesBack met := by
  rw [t.resolves.cycle]
  constructor
  · rintro ⟨keys, v, hchain, htwice⟩
    induction hchain with
    | done ty => exact absurd List.nodup_nil htwice
    | next first onward ih =>
      rename_i key keys
      by_cases hkey : key ∈ keys
      · obtain ⟨again, hreach, hagain⟩ := reaches_of_chain onward hkey
        have hback : Relation.TransGen t.Unfolds _ again := .head' ⟨key, first⟩ hreach
        exact ⟨_, .refl, key, alias?_of_step first, again, hback, hagain⟩
      · obtain ⟨met, hreach, hback⟩ := ih fun honce => htwice (List.nodup_cons.2 ⟨hkey, honce⟩)
        exact ⟨met, hreach.head ⟨key, first⟩, hback⟩
  · rintro ⟨met, hreach, key, hkey, again, hback, hagain⟩
    obtain ⟨keys, hchain⟩ := chain_of_reaches hreach
    obtain ⟨next, ⟨key', hnext⟩, hback⟩ := Relation.TransGen.head'_iff.1 hback
    obtain ⟨keys', hchain'⟩ := chain_of_reaches hback
    obtain ⟨⟨_, next'⟩, hlast, rfl⟩ := Option.map_eq_some_iff.1 hagain
    cases (alias?_of_step hnext).symm.trans hkey
    refine ⟨_, _, hchain.trans (.next hnext (hchain'.trans (.next hlast (.done _)))), ?_⟩
    simp [List.nodup_append]

/-- Every cycle that following aliases from a type comes to runs through the alias that the type
names. -/
def OwnCycles (t : Symbols) (ty : Ty) : Prop :=
  ∀ met, Relation.TransGen t.Unfolds ty met → t.ComesBack met →
    ∃ again, Relation.ReflTransGen t.Unfolds met again ∧ t.alias? again = t.alias? ty

theorem OwnCycles.comesBack_iff (h : t.OwnCycles ty) (hname : (t.alias? ty).isSome) :
    (∃ met, Relation.ReflTransGen t.Unfolds ty met ∧ t.ComesBack met) ↔ t.ComesBack ty := by
  refine ⟨?_, fun hback => ⟨ty, .refl, hback⟩⟩
  rintro ⟨met, hreach, hback⟩
  rcases Relation.reflTransGen_iff_eq_or_transGen.1 hreach with rfl | hreach
  · exact hback
  · obtain ⟨again, hagain, hsame⟩ := h met hreach hback
    obtain ⟨key, hkey⟩ := Option.isSome_iff_exists.1 hname
    exact ⟨key, hkey, again, hreach.trans_left hagain, hsame.trans hkey⟩

end Symbols

/-! ## Declarations -/

namespace Analysis

open Relation (ReflTransGen TransGen)

/-- The declaration of an alias whose name is free reports the alias if following aliases from it
meets one that it comes back to, and nothing else. So an alias that comes back to itself is reported;
and where no other cycle can be met, it is reported only then. -/
theorem selfAlias_reported (h : Head) (s : State) (hfree : s.table.lookup h.name = none) :
    let t : Symbols := s.table.insert (.definition h.name (.aliasDef h.type) h.loc)
    let self : Ty := .custom [h.name]
    ∃ reported : Bool,
      aliasDecl h s = ((), { s with
        table := t
        findings := s.findings ++ if reported then [⟨h.loc, .selfAlias h.name⟩] else []
        declared := s.declared ++ [(h.type, h.loc)] }) ∧
      (reported = true ↔ ∃ met, ReflTransGen t.Unfolds self met ∧ t.ComesBack met) ∧
      (t.ComesBack self → reported = true) ∧
      (t.OwnCycles self → (reported = true ↔ t.ComesBack self)) := by
  intro t self
  have hself : t.resolve [h.name] = some (.definition h.name (.aliasDef h.type) h.loc) := by
    rw [Symbols.resolve_single]
    exact Table.lookup_insert_self s.table (.definition h.name (.aliasDef h.type) h.loc)
  have hname : (t.alias? self).isSome := by
    have hstands : t.standsFor? [h.name] = some (h.type.qualify []) := by
      rw [Symbols.standsFor?, hself]
      rfl
    rw [Symbols.alias?, Symbols.aliasStep?_custom, hstands]
    rfl
  refine ⟨t.aliasLoops self, ?_, Symbols.aliasLoops_iff, fun hback => ?_, fun hown => ?_⟩
  · unfold aliasDecl
    rw [bind_apply, redefined_free hfree]
    change (if t.aliasLoops self = true then report h.loc (.selfAlias h.name) else pure ()) _ = _
    cases t.aliasLoops self with
    | true => rfl
    | false => simp [pure_apply, t]
  · exact Symbols.aliasLoops_iff.2 ⟨self, .refl, hback⟩
  · rw [Symbols.aliasLoops_iff]
    exact hown.comesBack_iff hname

/-- The declaration of an alias as a statement. -/
def defineAlias (x target : String) : Node :=
  .leaf { kind := .aliasDef, loc := {}, name := .name x, type := .custom [.name target] }

/-- The last of three aliases closes a cycle and is reported. -/
theorem selfAlias_reported_closing :
    let s := finished {} .written 1000 [defineAlias "A" "B", defineAlias "B" "C"]
    let h := (defineAlias "C" "A").head
    let t : Symbols := s.table.insert (.definition h.name (.aliasDef h.type) h.loc)
    s.table.lookup h.name = none ∧ t.ComesBack (.custom [.name "C"]) ∧
      (aliasDecl h s).2.findings = s.findings ++ [⟨{}, .selfAlias (.name "C")⟩] := by
  intro s h t
  have hfree : s.table.lookup h.name = none := by rfl
  have hback : t.ComesBack (.custom [.name "C"]) := by
    have hC : t.Unfolds (.custom [.name "C"]) (.custom [.name "A"]) := ⟨_, by rfl⟩
    have hA : t.Unfolds (.custom [.name "A"]) (.custom [.name "B"]) := ⟨_, by rfl⟩
    have hB : t.Unfolds (.custom [.name "B"]) (.custom [.name "C"]) := ⟨_, by rfl⟩
    exact ⟨[.name "C"], by rfl, _, ((TransGen.single hC).tail hA).tail hB, by rfl⟩
  obtain ⟨reported, hrun, -, hreported, -⟩ := selfAlias_reported h s hfree
  rw [hreported hback] at hrun
  exact ⟨hfree, hback, by rw [hrun]; rfl⟩

/-- An alias of another one that is part of a cycle is reported, although following aliases from it
does not come back to it. -/
theorem selfAlias_before_cycle :
    let s := finished {} .written 1000 [defineAlias "B" "C", defineAlias "C" "B"]
    let h := (defineAlias "A" "B").head
    let t : Symbols := s.table.insert (.definition h.name (.aliasDef h.type) h.loc)
    s.table.lookup h.name = none ∧
      (aliasDecl h s).2.findings = s.findings ++ [⟨{}, .selfAlias (.name "A")⟩] ∧
      ¬ t.ComesBack (.custom [.name "A"]) := by
  intro s h t
  refine ⟨by rfl, by rfl, ?_⟩
  rintro ⟨key, hkey, again, hreach, hagain⟩
  have hA : t.aliasStep? (.custom [.name "A"]) = some ([.name "A"], .custom [.name "B"]) := by rfl
  have hB : t.aliasStep? (.custom [.name "B"]) = some ([.name "B"], .custom [.name "C"]) := by rfl
  have hC : t.aliasStep? (.custom [.name "C"]) = some ([.name "C"], .custom [.name "B"]) := by rfl
  -- from the first step on there is nothing but the other two
  have hother : again = .custom [.name "B"] ∨ again = .custom [.name "C"] := by
    clear hagain
    induction hreach with
    | single hnext => exact .inl (hnext.eq hA)
    | tail _ hnext ih =>
      rcases ih with rfl | rfl
      · exact .inr (hnext.eq hB)
      · exact .inl (hnext.eq hC)
  rw [Symbols.alias?_of_step hA] at hkey
  cases hkey
  rcases hother with rfl | rfl
  · rw [Symbols.alias?_of_step hB] at hagain
    exact absurd hagain (by decide)
  · rw [Symbols.alias?_of_step hC] at hagain
    exact absurd hagain (by decide)

end Analysis

end TreeSema
