import Mathlib.Data.Set.Card
import TreeSema.Proofs.Coercion.Norm
import TreeSema.Proofs.Walk

/-!
# Following aliases comes to an end

Following aliases tries a type, notes the alias that it names and goes on with the target, until a
type names none or an alias was noted before. Targets get longer on the way, as modules are written
in front of them; what gets less is the aliases that were not noted yet. So there is at most one pass
more than there are aliases, and what comes out depends on the chain of steps alone.

* `Alias.Chain`, `Alias.Runs`: the steps from a type, and the passes of following.
* `Alias.exists_runs`: following ends.
* `Alias.Resolves`: what comes out.
* `aliases_resolve`: so it is for tables inside each other, and for tables that refer to each other.
-/
namespace TreeSema

namespace Alias

variable {κ : Type} {step : Ty → Option (κ × Ty)}

variable (step) in
/-- From a type to another by steps with these keys. -/
inductive Chain : Ty → List κ → Ty → Prop
  | done (ty : Ty) : Chain ty [] ty
  | next {ty next v key keys} (first : step ty = some (key, next)) (onward : Chain next keys v) :
    Chain ty (key :: keys) v

variable (step) in
/-- So many passes from a type on, with some keys noted: the last finds that there is no step, or
that its key was noted. -/
inductive Runs : List κ → Ty → Nat → Option Ty → Prop
  | ends {visited ty} (stop : step ty = none) : Runs visited ty 1 (some ty)
  | again {visited ty key next} (first : step ty = some (key, next)) (seen : key ∈ visited) :
    Runs visited ty 1 none
  | next {visited ty key next n r} (first : step ty = some (key, next)) (new : key ∉ visited)
      (onward : Runs (key :: visited) next n r) : Runs visited ty (n + 1) r

variable (step) in
/-- The keys of all steps. -/
def entries : Set κ := {key | ∃ ty next, step ty = some (key, next)}

variable (step) in
/-- What following comes to: there is no step at the start, or a chain of steps ends without coming to
a key again, or it comes to one. -/
inductive ComesTo (ty : Ty) : Option Ty → Bool → Prop
  | plain (stop : step ty = none) : ComesTo ty none false
  | value {keys v} (chain : Chain step ty keys v) (steps : keys ≠ []) (once : keys.Nodup)
      (stop : step v = none) : ComesTo ty (some v) false
  | cycle {keys v} (chain : Chain step ty keys v) (twice : ¬ keys.Nodup) : ComesTo ty none true

variable {ty next v u : Ty} {key : κ} {keys keys' visited : List κ} {n fuel : Nat} {r : Option Ty}

/-- There is one way to a type without a step, and every other is the start of it. -/
theorem Chain.rest (h' : Chain step ty keys' u) (h : Chain step ty keys v) (hend : step v = none) :
    ∃ rest, keys = keys' ++ rest ∧ Chain step u rest v := by
  induction h' generalizing keys with
  | done ty => exact ⟨keys, rfl, h⟩
  | next first _ ih =>
    cases h with
    | done ty =>
      rw [hend] at first
      cases first
    | next first' onward =>
      rw [first] at first'
      cases first'
      obtain ⟨rest, rfl, hrest⟩ := ih onward
      exact ⟨rest, rfl, hrest⟩

theorem Chain.of_end (h : Chain step ty keys v) (hend : step ty = none) : keys = [] ∧ v = ty := by
  cases h with
  | done ty => exact ⟨rfl, rfl⟩
  | next first _ =>
    rw [hend] at first
    cases first

theorem Chain.trans (h : Chain step ty keys v) (h' : Chain step v keys' u) :
    Chain step ty (keys ++ keys') u := by
  induction h with
  | done ty => exact h'
  | next first _ ih => exact .next first (ih h')

/-! ## Passes -/

/-- As much fuel as there are passes is enough. -/
theorem Runs.follow_eq [BEq κ] [LawfulBEq κ] (h : Runs step visited ty n r) (hfuel : n ≤ fuel) :
    follow step fuel visited ty = r := by
  induction h generalizing fuel with
  | ends stop =>
    obtain ⟨fuel, rfl⟩ := Nat.exists_eq_add_one.2 hfuel
    simp [follow, stop]
  | again first seen =>
    obtain ⟨fuel, rfl⟩ := Nat.exists_eq_add_one.2 hfuel
    simp [follow, first, seen]
  | next first new _ ih =>
    obtain ⟨fuel, rfl⟩ := Nat.exists_eq_add_one.2 (Nat.lt_of_lt_of_le (Nat.succ_pos _) hfuel)
    simp [follow, first, new, ih (Nat.le_of_succ_le_succ hfuel)]

/-- What comes out is the end of a chain, unless a key comes again in it. -/
theorem Runs.chain (h : Runs step visited ty n r) (hvisited : visited.Nodup) :
    ∃ keys v, Chain step ty keys v ∧ (r = some v ∧ step v = none ∧ (keys ++ visited).Nodup ∨
      r = none ∧ ¬ (keys ++ visited).Nodup) := by
  induction h with
  | ends stop => exact ⟨[], _, .done _, .inl ⟨rfl, stop, hvisited⟩⟩
  | again first seen =>
    exact ⟨[_], _, .next first (.done _), .inr ⟨rfl, fun h => (List.nodup_cons.1 h).1 seen⟩⟩
  | next first new _ ih =>
    obtain ⟨keys, v, hchain, hr⟩ := ih (List.nodup_cons.2 ⟨new, hvisited⟩)
    rw [List.nodup_middle] at hr
    exact ⟨_, v, .next first hchain, hr⟩

theorem ncard_lt (hfin : (entries step).Finite) (hstep : step ty = some (key, next))
    (hnew : key ∉ visited) : (entries step \ {k | k ∈ key :: visited}).ncard
      < (entries step \ {k | k ∈ visited}).ncard := by
  refine Set.ncard_lt_ncard ⟨fun k hk => ?_, fun hsub => ?_⟩ hfin.sdiff
  · exact ⟨hk.1, fun h => hk.2 (.tail _ h)⟩
  · exact (hsub ⟨⟨ty, next, hstep⟩, hnew⟩).2 List.mem_cons_self

/-- Every pass but the last notes a key, so that fewer are left. -/
theorem exists_runs (hfin : (entries step).Finite) (visited : List κ) (ty : Ty) :
    ∃ n ≤ (entries step \ {k | k ∈ visited}).ncard + 1, ∃ r, Runs step visited ty n r := by
  cases hstep : step ty with
  | none => exact ⟨1, Nat.le_add_left _ _, _, .ends hstep⟩
  | some found =>
    obtain ⟨key, next⟩ := found
    by_cases hseen : key ∈ visited
    · exact ⟨1, Nat.le_add_left _ _, _, .again hstep hseen⟩
    · have hlt := ncard_lt hfin hstep hseen
      obtain ⟨n, hn, r, hruns⟩ := exists_runs hfin (key :: visited) next
      exact ⟨n + 1, by omega, r, .next hstep hseen hruns⟩
termination_by (entries step \ {k | k ∈ visited}).ncard
decreasing_by exact ncard_lt hfin hstep hseen

/-- Keys that are all in a list are no more than its elements. -/
theorem entries_bounded {l : List κ} (h : ∀ {ty key next}, step ty = some (key, next) → key ∈ l) :
    (entries step).Finite ∧ (entries step).ncard ≤ l.length := by
  classical
  have hsub : entries step ⊆ ↑l.toFinset := by
    rintro key ⟨ty, next, hstep⟩
    exact List.mem_toFinset.2 (h hstep)
  have hfin := l.toFinset.finite_toSet
  refine ⟨hfin.subset hsub, (Set.ncard_le_ncard hsub hfin).trans ?_⟩
  rw [Set.ncard_coe_finset]
  exact l.toFinset_card_le

/-! ## What comes out -/

theorem Runs.comesTo (h : Runs step [] ty n r) :
    ComesTo step ty ((step ty).bind fun _ => r) ((step ty).isSome && r.isNone) := by
  cases hstep : step ty with
  | none => exact .plain hstep
  | some found =>
    obtain ⟨keys, v, hchain, ⟨rfl, hend, honce⟩ | ⟨rfl, htwice⟩⟩ := h.chain List.nodup_nil
    · rw [List.append_nil] at honce
      refine .value hchain ?_ honce hend
      rintro rfl
      cases hchain
      rw [hend] at hstep
      cases hstep
    · rw [List.append_nil] at htwice
      exact .cycle hchain htwice

namespace ComesTo

variable {b : Bool} (h : ComesTo step ty r b)

include h

theorem plain_iff : r = none ∧ b = false ↔ step ty = none := by
  cases h with
  | plain stop => exact iff_of_true ⟨rfl, rfl⟩ stop
  | value chain steps => exact iff_of_false (by simp) fun hend => steps (chain.of_end hend).1
  | cycle chain twice =>
    refine iff_of_false (by simp) fun hend => twice ?_
    rw [(chain.of_end hend).1]
    exact List.nodup_nil

/-- A chain to the end goes through every other, so there is one. -/
theorem value_iff : r = some v ↔
    ∃ keys, Chain step ty keys v ∧ keys ≠ [] ∧ keys.Nodup ∧ step v = none := by
  cases h with
  | plain stop =>
    refine iff_of_false (by simp) ?_
    rintro ⟨keys, chain, steps, -⟩
    exact steps (chain.of_end stop).1
  | value chain steps once stop =>
    constructor
    · rintro ⟨⟩
      exact ⟨_, chain, steps, once, stop⟩
    · rintro ⟨keys, chain', -, -, stop'⟩
      obtain ⟨rest, -, hrest⟩ := chain'.rest chain stop
      rw [(hrest.of_end stop').2]
  | cycle chain twice =>
    refine iff_of_false (by simp) ?_
    rintro ⟨keys, chain', -, once, stop⟩
    obtain ⟨rest, rfl, -⟩ := chain.rest chain' stop
    exact twice once.of_append_left

theorem cycle_iff_otherwise : b = true ↔ step ty ≠ none ∧ r = none := by
  rw [← Bool.not_eq_false, ne_eq, ← h.plain_iff]
  cases h <;> simp

theorem cycle_iff : b = true ↔ ∃ keys v, Chain step ty keys v ∧ ¬ keys.Nodup := by
  cases h with
  | plain stop =>
    refine iff_of_false (by simp) ?_
    rintro ⟨keys, v, chain, twice⟩
    rw [(chain.of_end stop).1] at twice
    exact twice List.nodup_nil
  | value chain _ once stop =>
    refine iff_of_false (by simp) ?_
    rintro ⟨keys, v, chain', twice⟩
    obtain ⟨rest, rfl, -⟩ := chain'.rest chain stop
    exact twice once.of_append_left
  | cycle chain twice => exact iff_of_true rfl ⟨_, _, chain, twice⟩

end ComesTo

variable (step) in
/-- Following ends after at most one pass more than there are keys. It gives a type just if a chain
of one or more steps leads to it, no key comes twice in it and the type has no step; nothing just if
there is no step at the start; and otherwise it finds a cycle, where a key comes twice. What it gives
is followed no further. -/
structure Resolves (value? : Ty → Option Ty) (loops : Ty → Bool) : Prop where
  finite : (entries step).Finite
  ends : ∀ ty, ∃ n ≤ (entries step).ncard + 1,
    Runs step [] ty n (if loops ty then none else some ((value? ty).getD ty))
  value : ∀ ty v, value? ty = some v ↔
    ∃ keys, Chain step ty keys v ∧ keys ≠ [] ∧ keys.Nodup ∧ step v = none
  plain : ∀ ty, value? ty = none ∧ loops ty = false ↔ step ty = none
  otherwise : ∀ ty, loops ty = true ↔ step ty ≠ none ∧ value? ty = none
  cycle : ∀ ty, loops ty = true ↔ ∃ keys v, Chain step ty keys v ∧ ¬ keys.Nodup
  again : ∀ ty v, value? ty = some v → value? v = none

theorem resolves [BEq κ] [LawfulBEq κ] {value? : Ty → Option Ty} {loops : Ty → Bool} {l : List κ}
    (hkeys : ∀ {ty key next}, step ty = some (key, next) → key ∈ l)
    (hvalue : ∀ ty, value? ty = (step ty).bind fun _ => follow step (l.length + 1) [] ty)
    (hloops : ∀ ty, loops ty = ((step ty).isSome && (value? ty).isNone)) :
    Resolves step value? loops := by
  obtain ⟨hfin, hcard⟩ := entries_bounded hkeys
  have hruns : ∀ ty, ∃ n ≤ (entries step).ncard + 1, ∃ r, Runs step [] ty n r ∧
      value? ty = ((step ty).bind fun _ => r) ∧ loops ty = ((step ty).isSome && r.isNone) := by
    intro ty
    obtain ⟨n, hn, r, hruns⟩ := exists_runs hfin [] ty
    have hn' : n ≤ (entries step).ncard + 1 := by simpa using hn
    have hfollow := hruns.follow_eq (Nat.le_trans hn' (Nat.succ_le_succ hcard))
    refine ⟨n, hn', r, hruns, by rw [hvalue, hfollow], ?_⟩
    rw [hloops, hvalue, hfollow]
    cases step ty <;> rfl
  have hcomes : ∀ ty, ComesTo step ty (value? ty) (loops ty) := by
    intro ty
    obtain ⟨n, -, r, hr, hv, hl⟩ := hruns ty
    rw [hv, hl]
    exact hr.comesTo
  refine ⟨hfin, fun ty => ?_, fun ty v => (hcomes ty).value_iff, fun ty => (hcomes ty).plain_iff,
    fun ty => (hcomes ty).cycle_iff_otherwise, fun ty => (hcomes ty).cycle_iff, fun ty v hv => ?_⟩
  · obtain ⟨n, hn, r, hr, hv, hl⟩ := hruns ty
    refine ⟨n, hn, ?_⟩
    rw [hv, hl]
    cases hstep : step ty with
    | none =>
      cases hr with
      | ends stop => simpa using Runs.ends stop
      | again first | next first =>
        rw [hstep] at first
        cases first
    | some found => cases r <;> simpa using hr
  · obtain ⟨-, -, -, -, stop⟩ := (hcomes ty).value_iff.1 hv
    exact ((hcomes v).plain_iff.2 stop).1

end Alias

/-! ## Tables inside each other -/

namespace Symbols

variable {t : Symbols}

/-- An alias that is followed is one of those that the table has. -/
theorem mem_located_of_step {ty next key} (h : t.aliasStep? ty = some (key, next)) :
    ∃ target, (key, target) ∈ t.located := by
  cases ty with
  | custom path =>
    rw [aliasStep?_custom] at h
    obtain ⟨target, htarget, heq⟩ := Option.map_eq_some_iff.1 h
    cases heq
    obtain ⟨declared, hmem, -⟩ := mem_located_of_standsFor? htarget
    exact ⟨declared, hmem⟩
  | _ => cases h

theorem resolves (t : Symbols) : Alias.Resolves t.aliasStep? t.aliasValue? t.aliasLoops := by
  have hlength : (t.located.map (·.1)).length = t.aliasTargets.length := by
    have hweigh := weigh_located (fun _ => 1) t
    rwa [Alias.weigh_one, Alias.weigh_one, List.length_map, ← List.length_map (f := (·.1))] at hweigh
  refine Alias.resolves (l := t.located.map (·.1)) (fun hstep => ?_) (fun ty => ?_) fun _ => rfl
  · obtain ⟨target, hmem⟩ := mem_located_of_step hstep
    exact List.mem_map.2 ⟨_, hmem, rfl⟩
  · rw [aliasValue?, hlength]
    cases t.aliasStep? ty <;> rfl

/-- Seeing through aliases once is enough. -/
theorem underlying_underlying (t : Symbols) (ty : Ty) :
    t.underlying (t.underlying ty) = t.underlying ty := by
  rcases hvalue : t.aliasValue? ty with _ | v
  · have hu : t.underlying ty = ty := by rw [underlying, hvalue]; rfl
    rw [hu, hu]
  · have hu : t.underlying ty = v := by rw [underlying, hvalue]; rfl
    rw [hu, underlying, t.resolves.again ty v hvalue]
    rfl

end Symbols

/-! ## Tables by name -/

namespace Table

variable {M : Type} {t : Table M} {e : Entry M} {target : Ty}

/-- The aliases that a table has itself, by their names. -/
def ownAliases (t : Table M) : List (Ident × Ty) :=
  (t.root :: t.stack).flatMap fun s =>
    (s.transient ++ s.persistent).filterMap fun e => (ModuleBody.target? e).map (Prod.mk e.name)

theorem length_ownAliases (t : Table M) : t.ownAliases.length = t.ownTargets.length := by
  have hmap : t.ownTargets = t.ownAliases.map (·.2) := by
    rw [ModuleBody.ownTargets_eq, ownAliases, List.map_flatMap]
    simp [List.map_filterMap, Function.comp_def]
  rw [hmap, List.length_map]

theorem mem_ownAliases (he : t.Holds e) (hk : e.kind = .aliasDef target) :
    (e.name, target) ∈ t.ownAliases := by
  obtain ⟨s, hs, he⟩ := he
  refine List.mem_flatMap.2 ⟨s, hs, List.mem_filterMap.2 ⟨e, List.mem_append.2 he, ?_⟩⟩
  simp [ModuleBody.target?, hk]

/-- A step is that of an alias which a path leads to. -/
theorem path_of_aliasStepBy {bodyOf : M → Table M} {ty next key}
    (h : t.aliasStepBy bodyOf ty = some (key, next)) : ∃ path e target,
      t.resolveBy bodyOf path = some e ∧ e.kind = .aliasDef target ∧
        key = t.canonicalBy bodyOf path := by
  cases ty with
  | custom path =>
    simp only [aliasStepBy] at h
    split at h
    · rename_i target loc he
      cases h
      exact ⟨path, _, target, he, rfl, rfl⟩
    · cases h
  | _ => cases h

end Table

namespace Workspace

variable {w : Workspace} {name : String} {t B : Table String} {pre modules : List Ident}

/-- The table where a walk ends is the one that its modules lead to. -/
theorem get_tableAt (h : Table.Goes w.get t pre modules B) (hname : w.get name = t) :
    w.get (w.tableAt name modules) = B := by
  induction h generalizing name with
  | stay => exact hname
  | @enter t B m segments modules d body hd hk _ ih =>
    obtain ⟨_, _, kind, _⟩ := d
    dsimp only at hk
    subst hk
    rw [tableAt, hname, hd]
    exact ih rfl
  | past _ _ _ ih => exact ih hname

/-- The aliases of all tables, by their tables and names. -/
def aliases (w : Workspace) : List (String × Option Ident) :=
  w.tables.flatMap fun p => p.2.ownAliases.map fun a => (p.1, some a.1)

theorem mem_aliases_of_step {ty next key} (h : w.aliasStep? name ty = some (key, next)) :
    key ∈ w.aliases := by
  obtain ⟨⟨canonical, target⟩, hstep, heq⟩ := Option.map_eq_some_iff.1 h
  cases heq
  obtain ⟨path, e, declared, he, hk, rfl⟩ := Table.path_of_aliasStepBy hstep
  obtain ⟨pre, modules, B, last, rfl, hgoes, hlast, -, hcanonical⟩ := Table.ends_of_alias he hk
  have hB := get_tableAt hgoes rfl
  rw [hcanonical, List.dropLast_concat, List.getLast?_concat]
  generalize w.tableAt name modules = home at hB
  subst hB
  unfold get at hlast
  cases hhome : w.tables.lookup home with
  | none =>
    rw [hhome] at hlast
    exact absurd (Table.holds_of_lookup hlast) Table.not_holds_empty
  | some table =>
    rw [hhome] at hlast
    have hfind : w.tables.find? (·.1 == home) = some (home, table) := by
      rw [Keyed.find?_eq_lookup, hhome]
      rfl
    refine List.mem_flatMap.2 ⟨(home, table), List.mem_of_find?_eq_some hfind, List.mem_map.2 ?_⟩
    exact ⟨_, Table.mem_ownAliases (Table.holds_of_lookup hlast) hk,
      by rw [Table.name_of_lookup hlast]⟩

theorem resolves (w : Workspace) (name : String) :
    Alias.Resolves (w.aliasStep? name) (w.aliasValue? name) (w.aliasLoops name) := by
  have hlength : w.aliases.length = (w.tables.flatMap (·.2.ownTargets)).length := by
    simp [aliases, List.length_flatMap, Table.length_ownAliases]
  refine Alias.resolves (l := w.aliases) mem_aliases_of_step (fun ty => ?_) fun _ => rfl
  rw [aliasValue?, hlength]
  cases w.aliasStep? name ty <;> rfl

end Workspace

/-- Following aliases comes to an end and to what the chain of its steps ends in, or finds a cycle,
in every table with tables of modules inside it and in every table of a workspace. A type with
aliases followed at its top has none left to follow. -/
theorem aliases_resolve :
    (∀ t : Symbols, Alias.Resolves t.aliasStep? t.aliasValue? t.aliasLoops ∧
      ∀ ty, t.underlying (t.underlying ty) = t.underlying ty) ∧
    ∀ (w : Workspace) (name : String),
      Alias.Resolves (w.aliasStep? name) (w.aliasValue? name) (w.aliasLoops name) :=
  ⟨fun t => ⟨t.resolves, t.underlying_underlying⟩, Workspace.resolves⟩

end TreeSema
