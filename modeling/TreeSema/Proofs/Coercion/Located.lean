import TreeSema.Proofs.Course.Resolve

/-!
# Where the aliases of a table are

An alias is told from others by its canonical path: the modules that lead to it, and its name.
`Symbols.located` lists the aliases of a table and of its modules by these paths, so that following
aliases can be paid for: each alias that is followed is taken off the list, and what is left bounds
what can still come.

* `Symbols.weigh_located`: the list has the targets that `Symbols.aliasTargets` has.
* `Symbols.mem_located_of_resolve`: an alias that a path leads to is on the list.
* `Alias.left_cons`: what is left once an alias is taken off.
-/
namespace TreeSema

/-! ## Weights -/

namespace Alias

/-- The weight of some types. -/
def weigh (w : Ty → Nat) (targets : List Ty) : Nat := targets.foldr (fun ty n => w ty + n) 0

variable {w : Ty → Nat}

@[simp] theorem weigh_nil : weigh w [] = 0 := rfl

@[simp] theorem weigh_cons (ty : Ty) (targets : List Ty) :
    weigh w (ty :: targets) = w ty + weigh w targets := rfl

@[simp] theorem weigh_append (l r : List Ty) : weigh w (l ++ r) = weigh w l + weigh w r := by
  induction l with
  | nil => simp
  | cons ty l ih => simp [ih, Nat.add_assoc]

theorem weigh_one (targets : List Ty) : weigh (fun _ => 1) targets = targets.length := by
  induction targets with
  | nil => rfl
  | cons ty targets ih => rw [weigh_cons, ih, List.length_cons, Nat.add_comm]

/-- The weight of the aliases whose paths are not in a list. -/
def left (w : Ty → Nat) (visited : List (List Ident)) : List (List Ident × Ty) → Nat
  | [] => 0
  | a :: aliases => (if a.1 ∈ visited then 0 else w a.2) + left w visited aliases

variable {visited : List (List Ident)} {key : List Ident}

theorem left_nil (aliases : List (List Ident × Ty)) :
    left w [] aliases = weigh w (aliases.map (·.2)) := by
  induction aliases with
  | nil => rfl
  | cons a aliases ih => simp [left, ih]

theorem left_cons_le (aliases : List (List Ident × Ty)) :
    left w (key :: visited) aliases ≤ left w visited aliases := by
  induction aliases with
  | nil => exact Nat.le_refl _
  | cons a aliases ih =>
    unfold left
    by_cases hmem : a.1 ∈ visited
    · simpa [hmem] using ih
    · by_cases hkey : a.1 = key <;> simp [hmem, hkey] <;> omega

/-- An alias that is taken off the list was on it with all its weight. -/
theorem left_cons {aliases ty} (hmem : (key, ty) ∈ aliases) (hnew : key ∉ visited) :
    left w (key :: visited) aliases + w ty ≤ left w visited aliases := by
  induction aliases with
  | nil => cases hmem
  | cons a aliases ih =>
    unfold left
    rcases List.mem_cons.1 hmem with rfl | hmem
    · have hle : left w (key :: visited) aliases ≤ left w visited aliases := left_cons_le aliases
      simp only [List.mem_cons, true_or, if_true, hnew, if_false]
      omega
    · have hle := ih hmem
      by_cases hvisited : a.1 ∈ visited
      · simpa [hvisited] using hle
      · by_cases hkey : a.1 = key <;> simp [hvisited, hkey] <;> omega

end Alias

/-! ## The aliases of a table -/

namespace ModuleBody

mutual

/-- The aliases of a table and of its modules, by the modules that lead to them and their names. -/
def located : ModuleBody → List (List Ident × Ty)
  | .table ⟨⟨transient, persistent, _, _⟩, stack⟩ =>
    locatedEntries transient ++ locatedEntries persistent ++ locatedScopes stack

def locatedEntries : List (Entry ModuleBody) → List (List Ident × Ty)
  | [] => []
  | ⟨name, _, .aliasDef target, _⟩ :: es => ([name], target) :: locatedEntries es
  | ⟨name, _, .moduleDef (some body), _⟩ :: es =>
    (located body).map (fun a => (name :: a.1, a.2)) ++ locatedEntries es
  | _ :: es => locatedEntries es

def locatedScopes : List (Scope ModuleBody) → List (List Ident × Ty)
  | [] => []
  | ⟨transient, persistent, _, _⟩ :: ss =>
    locatedEntries transient ++ locatedEntries persistent ++ locatedScopes ss

end

/-- What an alias stands for, as it is declared. -/
def target? {M : Type} (e : Entry M) : Option Ty :=
  match e.kind with
  | .aliasDef target => some target
  | _ => none

theorem ownTargets_eq {M : Type} (t : Table M) : t.ownTargets = (t.root :: t.stack).flatMap fun s =>
    s.transient.filterMap target? ++ s.persistent.filterMap target? := by
  simp only [Table.ownTargets, List.filterMap_append]
  rfl

open Alias

variable {w : Ty → Nat}

mutual

theorem weigh_located : ∀ b : ModuleBody,
    weigh w (b.located.map (·.2)) = weigh w (b.tables.flatMap Table.ownTargets)
  | .table ⟨⟨transient, persistent, order, context⟩, stack⟩ => by
    have htransient := weigh_locatedEntries transient
    have hpersistent := weigh_locatedEntries persistent
    have hstack := weigh_locatedScopes stack
    simp only [located, tables, ownTargets_eq, List.map_append, List.flatMap_cons,
      List.flatMap_append, weigh_append]
    omega

theorem weigh_locatedEntries : ∀ es : List SymbolEntry, weigh w ((locatedEntries es).map (·.2))
    = weigh w (es.filterMap target?) + weigh w ((tablesOfEntries es).flatMap Table.ownTargets)
  | [] => rfl
  | ⟨name, static, kind, loc⟩ :: es => by
    have hes := weigh_locatedEntries es
    cases kind with
    | aliasDef target =>
      simp only [locatedEntries, tablesOfEntries, target?, List.map_cons, List.filterMap_cons,
        weigh_cons]
      omega
    | moduleDef body =>
      cases body with
      | none => simpa [locatedEntries, tablesOfEntries, target?, List.filterMap_cons] using hes
      | some body =>
        have hbody := weigh_located body
        simp only [locatedEntries, tablesOfEntries, target?, List.map_append, List.map_map,
          List.filterMap_cons, List.flatMap_append, weigh_append]
        simp only [Function.comp_def]
        omega
    | _ => simpa [locatedEntries, tablesOfEntries, target?, List.filterMap_cons] using hes

theorem weigh_locatedScopes : ∀ ss : List (Scope ModuleBody), weigh w ((locatedScopes ss).map (·.2))
    = weigh w (ss.flatMap fun s => s.transient.filterMap target? ++ s.persistent.filterMap target?)
      + weigh w ((tablesOfScopes ss).flatMap Table.ownTargets)
  | [] => rfl
  | ⟨transient, persistent, order, context⟩ :: ss => by
    have htransient := weigh_locatedEntries transient
    have hpersistent := weigh_locatedEntries persistent
    have hss := weigh_locatedScopes ss
    simp only [locatedScopes, tablesOfScopes, List.map_append, List.flatMap_cons,
      List.flatMap_append, weigh_append]
    omega

end

theorem locatedEntries_cons (e : SymbolEntry) (es : List SymbolEntry) :
    locatedEntries (e :: es) = locatedEntries [e] ++ locatedEntries es := by
  obtain ⟨_, _, kind, _⟩ := e
  cases kind with
  | moduleDef body => cases body <;> simp [locatedEntries]
  | _ => simp [locatedEntries]

variable {e : SymbolEntry} {a : List Ident × Ty} (ha : a ∈ locatedEntries [e])

include ha

/-- What an entry brings is brought by the entries around it. -/
theorem mem_locatedEntries {es} (he : e ∈ es) : a ∈ locatedEntries es := by
  induction es with
  | nil => cases he
  | cons d es ih =>
    rw [locatedEntries_cons]
    rcases List.mem_cons.1 he with rfl | he
    · exact List.mem_append_left _ ha
    · exact List.mem_append_right _ (ih he)

theorem mem_locatedScopes {ss} {s : Scope ModuleBody} (hs : s ∈ ss) (he : s.Holds e) :
    a ∈ locatedScopes ss := by
  induction ss with
  | nil => cases hs
  | cons d ss ih =>
    obtain ⟨transient, persistent, order, context⟩ := d
    rcases List.mem_cons.1 hs with rfl | hs
    · exact List.mem_append_left _
        (List.mem_append.2 (he.imp (mem_locatedEntries ha) (mem_locatedEntries ha)))
    · exact List.mem_append_right _ (ih hs)

end ModuleBody

namespace Symbols

/-- The aliases of a table and of its modules, by their canonical paths. -/
def located (t : Symbols) : List (List Ident × Ty) := (ModuleBody.table t).located

variable {t : Symbols}

theorem weigh_located (w : Ty → Nat) (t : Symbols) :
    Alias.weigh w (t.located.map (·.2)) = Alias.weigh w t.aliasTargets :=
  ModuleBody.weigh_located (.table t)

theorem mem_located_of_holds {e} (he : t.Holds e) {a} (ha : a ∈ ModuleBody.locatedEntries [e]) :
    a ∈ t.located := by
  obtain ⟨⟨transient, persistent, order, context⟩, stack⟩ := t
  obtain ⟨s, hs, he⟩ := he
  rcases List.mem_cons.1 hs with rfl | hs
  · refine List.mem_append_left _ (List.mem_append.2 ?_)
    exact he.imp (ModuleBody.mem_locatedEntries ha) (ModuleBody.mem_locatedEntries ha)
  · exact List.mem_append_right _ (ModuleBody.mem_locatedScopes ha hs he)

/-- The aliases of the table that modules lead to are aliases of the table that they start from. -/
theorem mem_located_tableAt? : ∀ {modules : List Ident} {t B : Symbols},
    t.tableAt? modules = some B → ∀ {key : List Ident} {target : Ty}, (key, target) ∈ B.located →
      (modules ++ key, target) ∈ t.located
  | [], _, _, hB, _, _, h => by
    cases hB
    exact h
  | name :: rest, t, B, hB, key, target, h => by
    unfold tableAt? at hB
    split at hB
    · rename_i static body loc hd
      have hinner := mem_located_tableAt? hB h
      obtain rfl : _ = name := Table.name_of_lookup hd
      obtain ⟨inner⟩ := body
      refine mem_located_of_holds (Table.holds_of_lookup hd) (List.mem_append_left _ ?_)
      exact List.mem_map.2 ⟨(rest ++ key, target), hinner, rfl⟩
    · cases hB

/-- An alias that a path leads to is on the list, by its canonical path. -/
theorem mem_located_of_resolve {path} {e : SymbolEntry} {target} (he : t.resolve path = some e)
    (hk : e.kind = .aliasDef target) : (t.canonical path, target) ∈ t.located := by
  have hfinds := finds_of_resolve he
  obtain ⟨B, hB, hlast⟩ := hfinds.home fun d name howns => by
    rcases howns.kind_cases with ⟨owner, value, hkind⟩ | ⟨owner, payload, ordinal, hkind⟩ <;>
      · rw [hk] at hkind
        cases hkind
  rw [canonical_eq t hfinds.ne_nil, ← Table.name_of_lookup hlast]
  refine mem_located_tableAt? hB (mem_located_of_holds (Table.holds_of_lookup hlast) ?_)
  obtain ⟨_, _, kind, _⟩ := e
  dsimp only at hk
  subst hk
  exact List.mem_cons_self

end Symbols

end TreeSema
