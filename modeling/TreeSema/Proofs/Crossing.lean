import TreeSema.Proofs.Course.Resolve
import TreeSema.Proofs.Place.Runs

/-!
# Types across modules

The type of a variable or of a function's result is written as its own module writes it. Whoever
reaches the variable or the function by a path stands elsewhere, and there the type is written with
the modules of the path in front of each name. Then each name leads to what it leads to inside the
module.

The result of a call is written so. The type of a variable is not: it is given as it stands in the
module. That is right where no module is on the path, or where no name is in the type.

* `Ty.names`, `Ty.names_qualify`: the names in a type.
* `Analysis.exprAt_declared`: the type of a variable that is read or a function that is called.
* `Analysis.type_across_modules`: the type that a path has, and what its names lead to.
-/
namespace TreeSema

/-! ## Names in types -/

namespace Ty

mutual

/-- The names in a type, also those in the arguments of templates. -/
def names : Ty → List (List Ident)
  | ref t _ => names t
  | ptr t => names t
  | tuple ts => namesAll ts
  | array _ t => names t
  | template _ ts => namesAll ts
  | custom path => [path]
  | _ => []

def namesAll : List Ty → List (List Ident)
  | [] => []
  | t :: ts => names t ++ namesAll ts

end

mutual

/-- The modules stand in front of every name. -/
theorem names_qualify (modules : List Ident) : ∀ t : Ty,
    (t.qualify modules).names = t.names.map (modules ++ ·)
  | ref t _ => names_qualify modules t
  | ptr t => names_qualify modules t
  | tuple ts => namesAll_qualifyAll modules ts
  | array _ t => names_qualify modules t
  | template _ ts => namesAll_qualifyAll modules ts
  | custom _ => rfl
  | unknown | basic _ | unit => rfl

theorem namesAll_qualifyAll (modules : List Ident) : ∀ ts : List Ty,
    namesAll (qualifyAll modules ts) = (namesAll ts).map (modules ++ ·)
  | [] => rfl
  | t :: ts => by
    rw [qualifyAll, namesAll, namesAll, names_qualify, namesAll_qualifyAll, List.map_append]

end

mutual

/-- A type without names is the same in all modules. -/
theorem qualify_of_names {modules} : ∀ {t : Ty}, modules = [] ∨ t.names = [] →
    t.qualify modules = t
  | ref t m, h => congrArg (ref · m) (qualify_of_names (t := t) h)
  | ptr t, h => congrArg ptr (qualify_of_names (t := t) h)
  | tuple _, h => congrArg tuple (qualifyAll_of_names h)
  | array n t, h => congrArg (array n) (qualify_of_names (t := t) h)
  | template name _, h => congrArg (template name) (qualifyAll_of_names h)
  | custom _, h => by
    rcases h with rfl | h
    · rfl
    · cases h
  | unknown, _ | basic _, _ | unit, _ => rfl

theorem qualifyAll_of_names {modules} : ∀ {ts : List Ty},
    modules = [] ∨ namesAll ts = [] → qualifyAll modules ts = ts
  | [], _ => rfl
  | t :: ts, h => by
    rw [namesAll, List.append_eq_nil_iff] at h
    rw [qualifyAll, qualify_of_names (h.imp id And.left), qualifyAll_of_names (h.imp id And.right)]

end

end Ty

/-! ## Declared types -/

namespace Symbols

/-- The type of a variable, and of the result of a function, as it is declared. -/
def declaredType? (e : SymbolEntry) : Option Ty :=
  match e.kind with
  | .var v => some v.type
  | .func sig => some sig.result
  | _ => none

/-- Variables and functions belong to no enum and to no variant. -/
theorem not_owns_of_declared {d e : SymbolEntry} {name type} (h : declaredType? e = some type) :
    ¬ d.Owns name e := by
  intro howns
  unfold declaredType? at h
  rcases howns.kind_cases with ⟨owner, value, hk⟩ | ⟨owner, payload, ordinal, hk⟩ <;>
    · rw [hk] at h
      cases h

end Symbols

/-! ## Reading and calling -/

namespace Analysis

variable {cfg : Config} {k : Nat} {n n' : Node} {expected type : Ty}
  {s s' : State}

/-- The type that a path has which leads to a variable or a function. -/
theorem exprAt_declared {path tail} {e : SymbolEntry} {T : Ty} (hmember : ¬ s.table.IsMember n)
    (hchain : n.chain? = some ⟨path, tail⟩) (htail : ∀ m, tail = some m → m.kind? = some .call)
    (he : s.table.resolve path = some e) (hT : Symbols.declaredType? e = some T)
    (hrun : exprAt cfg k n expected s = ((n', some type), s')) :
    (∃ v, e.kind = .var v) ∧ type = T ∨ type = T.qualify (s.table.modulesOf path) := by
  by_cases hk : n.kind?.any Kind.isChain = true
  · obtain ⟨c, e', hchain', he', hmeans⟩ := exprAt_means hk hmember hrun
    cases hchain'.symm.trans hchain
    cases he'.symm.trans he
    unfold Symbols.declaredType? at hT
    rcases hmeans with ⟨v, hv, htype⟩ | ⟨-, hmade⟩
    · rw [hv] at hT
      cases hT
      refine .inl ⟨⟨v, hv⟩, htype.resolve_right ?_⟩
      rintro ⟨m, hm, hassign⟩
      cases (htail m hm).symm.trans hassign
    · cases hkind : e.kind with
      | func sig =>
        rw [hkind] at hT hmade
        cases hT
        exact .inr (Option.some.inj hmade).symm
      | var v =>
        rw [hkind] at hmade
        cases hmade
      | _ =>
        rw [hkind] at hT
        cases hT
  · cases Node.chain?_eq_some_iff.1 hchain with
    | name hname =>
      obtain ⟨-, e', v, he', hv, rfl⟩ := exprAt_name hname hrun
      cases ((Symbols.resolve_singleton _ _).trans he').symm.trans he
      unfold Symbols.declaredType? at hT
      rw [hv] at hT
      cases hT
      exact .inl ⟨⟨v, hv⟩, rfl⟩
    | built hbuilt => rcases hbuilt with hbuilt | hbuilt <;> simp [Node.kind?, hbuilt, Kind.isChain] at hk
    | access haccess => rcases haccess with haccess | haccess <;> simp [Node.kind?, haccess, Kind.isChain] at hk

/-- A path that leads to a variable or a function has the type that is declared in the module, with
the modules of the path in front of each name; from here these names lead to what they lead to in the
module. For a variable this is so only if there is no module on the path or no name in the type. -/
theorem type_across_modules {cfg : Config} {k : Nat} {n : Node} {expected type : Ty} {s : State}
    {path : List Ident} {tail : Option Node} {e : SymbolEntry} {T : Ty}
    (hmember : ¬ s.table.IsMember n) (hchain : n.chain? = some ⟨path, tail⟩)
    (htail : ∀ m, tail = some m → m.kind? = some .call) (he : s.table.resolve path = some e)
    (hT : Symbols.declaredType? e = some T)
    (hvar : ∀ v, e.kind = .var v → s.table.modulesOf path = [] ∨ T.names = [])
    (hrun : (exprAt cfg k n expected s).1.2 = some type) :
    type = T.qualify (s.table.modulesOf path) ∧
      ∃ B, s.table.tableAt? (s.table.modulesOf path) = some B ∧
        B.lookup (path.getLastD .missing) = some e ∧
        ∀ name ∈ type.names, ∃ inside ∈ T.names, name = s.table.modulesOf path ++ inside ∧
          (inside ≠ [] → s.table.resolve name = B.resolve inside) := by
  have htype : type = T.qualify (s.table.modulesOf path) := by
    rcases exprAt_declared hmember hchain htail he hT (Prod.ext (Prod.ext rfl hrun) rfl) with
      ⟨⟨v, hv⟩, rfl⟩ | htype
    · rw [Ty.qualify_of_names (hvar v hv)]
    · exact htype
  obtain ⟨B, hB, hlast⟩ :=
    (Symbols.finds_of_resolve he).home fun _ _ => Symbols.not_owns_of_declared hT
  refine ⟨htype, B, hB, hlast, fun name hname => ?_⟩
  rw [htype, Ty.names_qualify] at hname
  obtain ⟨inside, hinside, rfl⟩ := List.mem_map.1 hname
  exact ⟨inside, hinside, rfl, Symbols.resolve_tableAt? hB⟩

/-- A call of the function `g` of the module `b` in the module `a`, with a reference to a struct of
`b` for its result. -/
theorem type_across_modules_nested :
    let result : Ty := .ref (.custom [.name "S"]) false
    let g : Node := .leaf { kind := .funcDef, loc := {}, name := .name "g", type := result }
    let call : Node := .leaf { kind := .call, loc := {}, name := .name "g" }
    let n : Node := .pair .path (.pair .path (.ident "a") (.ident "b")) call
    let s := finished {} .written 1000 [.inModule "a" [.inModule "b" [.record "S" [], g]]]
    let type : Ty := .ref (.custom [.name "a", .name "b", .name "S"]) false
    (exprAt {} 9 n .unknown s).1.2 = some type ∧
      ∃ B, s.table.tableAt? [.name "a", .name "b"] = some B ∧
        s.table.resolve [.name "a", .name "b", .name "S"] = B.resolve [.name "S"] := by
  intro result g call n s type
  let path : List Ident := [.name "a", .name "b", .name "g"]
  have hrun : (exprAt {} 9 n .unknown s).1.2 = some type := by decide +kernel
  have hkind : (s.table.resolve path).map (·.kind.name) = some "function" := by decide +kernel
  have hT : (s.table.resolve path).bind Symbols.declaredType? = some result := by decide +kernel
  obtain ⟨e, he, hkind⟩ := Option.map_eq_some_iff.1 hkind
  rw [he] at hT
  have hmodules : s.table.modulesOf path = [.name "a", .name "b"] := by decide +kernel
  have hmember : ¬ s.table.IsMember n := fun h => by cases h.1
  have hchain : n.chain? = some ⟨path, some call⟩ := rfl
  obtain ⟨-, B, hB, -, hnames⟩ := type_across_modules hmember hchain
    (by rintro m ⟨⟩; rfl) he hT (fun v hv => by simp [hv, EntryKind.name] at hkind) hrun
  rw [hmodules] at hB hnames
  obtain ⟨inside, hinside, -, hresolve⟩ := hnames _ (List.mem_singleton.2 rfl)
  cases List.mem_singleton.1 hinside
  exact ⟨hrun, B, hB, hresolve (by simp)⟩

/-- A variable of a module, of a struct that the module declares, is read with the type that is
written in the module. From outside that name leads nowhere. -/
theorem type_of_module_variable :
    let n : Node := .pair .path (.ident "m") (.ident "v")
    let s := finished {} .written 1000
      [.inModule "m" [.record "S" [], .var "v" false (.custom [.name "S"]) []]]
    ((s.table.resolve [.name "m", .name "v"]).bind Symbols.declaredType?
        = some (.custom [.name "S"]) ∧
      s.table.modulesOf [.name "m", .name "v"] = [.name "m"]) ∧
    (exprAt {} 9 n .unknown s).1.2 = some (.custom [.name "S"]) ∧
      (s.table.resolve [.name "S"]).isNone ∧
      (s.table.resolve [.name "m", .name "S"]).isSome := by
  decide +kernel

end Analysis

end TreeSema
