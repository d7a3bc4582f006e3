import TreeSema.Proofs.Chain
import TreeSema.Proofs.Keyed
import TreeSema.Proofs.Pointwise
import TreeSema.Proofs.Step
import Mathlib.Data.List.Perm.Basic

/-!
# What analysis may do to a node

Analysis keeps a node, with whatever it makes of the nodes below, or puts another node in the place
of an access chain. `Rewriting` is what a relation between a node and what analysis makes of it has
to be closed under for this; `Replacement` lists what takes the place of a chain, by the call or
literal that ends it.

* `kept`: the components that are left when a later one takes the place of an earlier one of its
  name.
* `foldl_putComponent_perm`: putting components one after the other leaves just those.
* `Rewriting.withTail`: a chain with another end is kept.
-/
namespace TreeSema

/-- Is a node of this kind a call, a literal or an access, and so a chain? -/
def Kind.isChain : Kind → Bool
  | .call | .lit | .dot | .path => true
  | _ => false

/-- Two components that differ only in their values, and how the values are related. -/
inductive Component.Lift (R : Node → Node → Prop) : Component Node → Component Node → Prop
  | mk {name type x x' loc} (value : R x x') :
    Lift R ⟨name, type, x, loc⟩ ⟨name, type, x', loc⟩

theorem Component.Lift.withValue {R : Node → Node → Prop} (f : Component Node) {value}
    (h : R f.value value) : Component.Lift R f { f with value } := .mk h

namespace Analysis

/-! ## Components of which later ones replace earlier ones -/

variable {fs : List (Component Node)} {n b : Node} {h : Head} {cs : List Node}

/-- The components that no later one of the same name replaces. -/
def kept : List (Component Node) → List (Component Node)
  | [] => []
  | f :: rest => if rest.any (·.name == f.name) then kept rest else f :: kept rest

/-- Among the kept components a name is found as the last one given. -/
theorem find?_kept (name : Ident) (fs : List (Component Node)) :
    (kept fs).find? (·.name == name) = fs.reverse.find? (·.name == name) := by
  induction fs with
  | nil => rfl
  | cons f rest ih =>
    rw [List.reverse_cons, List.find?_append, ← ih, kept]
    by_cases hname : f.name = name
    · subst hname
      split
      · rename_i hlater
        have hfound : ((kept rest).find? (·.name == f.name)).isSome := by
          rw [ih, List.find?_isSome]
          simpa using hlater
        rw [Option.or_of_isSome hfound]
      · rename_i hlater
        have hnone : (kept rest).find? (·.name == f.name) = none := by
          rw [ih, List.find?_eq_none]
          simpa using hlater
        simp [hnone]
    · split <;> simp [beq_false_of_ne hname]

/-- Each name is kept once. -/
theorem nodup_kept : ∀ fs : List (Component Node), ((kept fs).map (·.name)).Nodup
  | [] => List.nodup_nil
  | f :: rest => by
    unfold kept
    split
    · exact nodup_kept rest
    · rename_i hlater
      refine List.nodup_cons.2 ⟨fun hmem => hlater ?_, nodup_kept rest⟩
      have hfound : ((kept rest).find? (·.name == f.name)).isSome := by simpa using hmem
      rw [find?_kept] at hfound
      simpa using hfound

/-- A component is kept if it is the last of its name. -/
theorem mem_kept_iff {f : Component Node} :
    f ∈ kept fs ↔ fs.reverse.find? (·.name == f.name) = some f := by
  rw [← find?_kept]
  exact ⟨fun hf => (Keyed.find?_eq_some_iff (nodup_kept fs)).2 ⟨hf, rfl⟩, List.mem_of_find?_eq_some⟩

theorem mem_of_mem_kept {f} (hf : f ∈ kept fs) : f ∈ fs :=
  List.mem_reverse.1 (List.mem_of_find?_eq_some (mem_kept_iff.1 hf))

/-- The value given to a name is that of the component kept for it. -/
theorem givenValue?_eq_some {name x} (h : givenValue? fs name = some x) :
    ∃ f ∈ kept fs, f.name = name ∧ f.value = x := by
  obtain ⟨f, hf, hvalue⟩ := Option.map_eq_some_iff.1 h
  obtain rfl : f.name = name := by simpa using List.find?_some hf
  exact ⟨f, mem_kept_iff.2 hf, rfl, hvalue⟩

theorem givenValue?_of_mem_kept {f : Component Node} (hf : f ∈ kept fs) :
    givenValue? fs f.name = some f.value := by
  rw [givenValue?, mem_kept_iff.1 hf, Option.map_some]

/-- Arguments in the order of parameters that all have different names, and that are all the names
that are given, are the kept values. -/
theorem ordered_perm_kept {given} {params : List Formal} {args : List Node}
    (hnodup : (params.map (·.name)).Nodup) (hall : ∀ f ∈ given, f.name ∈ params.map (·.name))
    (h : List.Forall₂ (fun p x => givenValue? given p.name = some x) params args) :
    args.Perm ((kept given).map (·.value)) := by
  have hargs : args.map some = (params.map (·.name)).map (givenValue? given) := by
    clear hnodup hall
    induction h with
    | nil => rfl
    | cons hp _ ih => simp [hp, ih]
  have hnames : (params.map (·.name)).Perm ((kept given).map (·.name)) := by
    refine (List.perm_ext_iff_of_nodup hnodup (nodup_kept given)).2 fun name => ⟨fun hm => ?_, ?_⟩
    · have hg : givenValue? given name ∈ args.map some := hargs ▸ List.mem_map_of_mem hm
      obtain ⟨x, -, hx⟩ := List.mem_map.1 hg
      obtain ⟨f, hf, hn, -⟩ := givenValue?_eq_some hx.symm
      exact List.mem_map.2 ⟨f, hf, hn⟩
    · intro hm
      obtain ⟨f, hf, rfl⟩ := List.mem_map.1 hm
      exact hall f (mem_of_mem_kept hf)
  have hkept : ((kept given).map (·.value)).map some
      = ((kept given).map (·.name)).map (givenValue? given) := by
    rw [List.map_map, List.map_map]
    exact List.map_congr_left fun f hf => (givenValue?_of_mem_kept hf).symm
  refine (List.map_perm_map_iff fun _ _ => Option.some.inj).1 ?_
  rw [hargs, hkept]
  exact hnames.map _

theorem putComponent_eq_put (f : Component Node) (done : List (Component Node)) :
    putComponent f done = Keyed.put (·.name) f done := by
  induction done with
  | nil => rfl
  | cons g rest ih => rw [putComponent, Keyed.put, ih]

/-- Components put one after the other. -/
theorem foldl_putComponent (fs : List (Component Node)) :
    fs.foldl (fun built f => putComponent f built) [] = Keyed.puts (·.name) fs := by
  simp only [putComponent_eq_put, Keyed.puts]

theorem foldl_putComponent_perm (fs : List (Component Node)) :
    (fs.foldl (fun built f => putComponent f built) []).Perm (kept fs) := by
  have hnodup := Keyed.nodup_puts (fun f : Component Node => f.name) fs
  rw [foldl_putComponent]
  refine (List.perm_ext_iff_of_nodup hnodup.of_map (nodup_kept fs).of_map).2 fun f => ?_
  rw [mem_kept_iff, ← Keyed.find?_puts, Keyed.find?_eq_some_iff hnodup]
  simp

/-! ## What takes the place of a chain -/

/-- What takes the place of a chain at `loc`, given the call or literal that ends the chain. `All`
relates arguments to what is made of them, `Named` does so for components, and `Order` says how
named arguments are put in order. -/
inductive Replacement (All : List Node → List Node → Prop)
    (Named : List (Component Node) → List (Component Node) → Prop)
    (Order : List (Component Node) → List Node → Prop) : Option Node → Location → Node → Prop
  /-- A value of an enum becomes its number. -/
  | number {loc integer path} :
    Replacement All Named Order none loc
      (.leaf { kind := .int, loc, integer, type := .custom path })
  /-- A literal of a struct or union has the last component of each name. -/
  | literal {loc} {h : Head} {cs} {fs fs' built : List (Component Node)} {b type}
      (hkind : h.kind = .lit) (hfs : Named fs fs') (hbuilt : built.Perm (kept fs')) :
    Replacement All Named Order (some (.mk h cs fs b)) loc
      (.ofFields { kind := .literal, loc, type } built)
  /-- An arm that carries nothing is given nothing. -/
  | emptyArm {loc tail owner path arm ordinal} (htail : carriesNothing tail) :
    Replacement All Named Order tail loc (encodeArm loc owner path arm ordinal [])
  /-- An arm that carries a tuple has the arguments as components, in their order. -/
  | tupleArm {loc} {h : Head} {cs} {fs payload : List (Component Node)} {b owner path arm ordinal}
      (hkind : h.kind = .call)
      (hnamed : h.named = false) (hcs : All cs (payload.map (·.value))) :
    Replacement All Named Order (some (.mk h cs fs b)) loc
      (encodeArm loc owner path arm ordinal payload)
  /-- An arm that carries a struct has the last component of each name. -/
  | structArm {loc} {h : Head} {cs} {fs fs' payload : List (Component Node)}
      {b owner path arm ordinal} (hkind : h.kind = .lit)
      (hfs : Named fs fs') (hpayload : payload.Perm (kept fs')) :
    Replacement All Named Order (some (.mk h cs fs b)) loc
      (encodeArm loc owner path arm ordinal payload)
  /-- A call with arguments in order. -/
  | call {loc} {h : Head} {cs args fs b type path}
      (hkind : h.kind = .call) (hnamed : h.named = false)
      (hcs : All cs args) :
    Replacement All Named Order (some (.mk h cs fs b)) loc
      (.ofChildren { kind := .typedCall, loc, type, path } args)
  /-- A call with named arguments. -/
  | callByName {loc} {h : Head} {cs args fs fs' b type path}
      (hkind : h.kind = .call) (hnamed : h.named = true)
      (hfs : Named fs fs') (horder : Order fs' args) :
    Replacement All Named Order (some (.mk h cs fs b)) loc
      (.ofChildren { kind := .typedCall, loc, type, path } args)

theorem Replacement.mono {All All' : List Node → List Node → Prop}
    {Named Named' : List (Component Node) → List (Component Node) → Prop}
    {Order Order' : List (Component Node) → List Node → Prop} {loc tail}
    (h : Replacement All Named Order tail loc n)
    (hall : ∀ {hd cs cs' fs b}, tail = some (.mk hd cs fs b) → All cs cs' → All' cs cs')
    (hnamed : ∀ {hd cs fs fs' b}, tail = some (.mk hd cs fs b) → Named fs fs' → Named' fs fs')
    (horder : ∀ {fs args}, Order fs args → Order' fs args) :
    Replacement All' Named' Order' tail loc n := by
  cases h with
  | number => exact .number
  | literal hkind hfs hbuilt => exact .literal hkind (hnamed rfl hfs) hbuilt
  | emptyArm htail => exact .emptyArm htail
  | tupleArm hkind hn hcs => exact .tupleArm hkind hn (hall rfl hcs)
  | structArm hkind hfs hp => exact .structArm hkind (hnamed rfl hfs) hp
  | call hkind hn hcs => exact .call hkind hn (hall rfl hcs)
  | callByName hkind hn hfs ho => exact .callByName hkind hn (hnamed rfl hfs) (horder ho)

/-- Arguments put in the order of the parameters of a function that a path leads to in some state
with the property, all names that are given being parameters. -/
def InParamOrder (I : State → Prop) (path : List Ident) (given : List (Component Node))
    (args : List Node) : Prop :=
  ∃ s e sig, I s ∧ s.table.resolve path = some e ∧ e.kind = .func sig ∧
    (∀ f ∈ given, f.name ∈ sig.params.map (·.name)) ∧
    List.Forall₂ (fun p x => givenValue? given p.name = some x) sig.params args

/-- A component of a payload has the name of a place in a tuple or one that is given at the end of a
chain. -/
def NamedBy (tail : Option Node) (f : Component Node) : Prop :=
  (∃ i, f.name = componentName i) ∨ ∃ g ∈ tail.elim [] Node.fields, g.name = f.name

/-- What stands right below the end of a chain. -/
def partsOf (tail : Option Node) : List Node :=
  tail.elim [] fun n => n.children ++ n.fields.map (·.value)

/-- What takes the place of a chain names what the chain leads to. The entry `e` was found at `path`,
`tail` ends the chain, and the names that are written are those by which the table `t` reaches the
definition. `Part` holds of what is made of the nodes below the end. -/
inductive Spells (t : Symbols) (path : List Ident) (tail : Option Node) (Part : Node → Prop)
    (e : SymbolEntry) : Node → Prop
  | number {loc owner value} (hk : e.kind = .enumValue owner value) :
    Spells t path tail Part e
      (.leaf { kind := .int, loc, integer := value, type := .custom (t.canonical path.dropLast) })
  | record {loc fields built} (hk : e.kind = .structDef fields ∨ e.kind = .unionDef fields)
      (hparts : ∀ f ∈ built, NamedBy tail f ∧ Part f.value) :
    Spells t path tail Part e
      (.ofFields { kind := .literal, loc, type := .custom (t.canonical path) } built)
  | arm {loc owner payload ordinal built} (hk : e.kind = .variantArm owner payload ordinal)
      (hfits : fitsUnsigned32 ordinal = true)
      (hparts : ∀ f ∈ built, NamedBy tail f ∧ Part f.value) :
    Spells t path tail Part e
      (encodeArm loc (t.canonical path.dropLast)
        ((t.canonical path.dropLast).dropLast ++ [payloadStruct owner (path.getLastD .missing)])
        (path.getLastD .missing) ordinal built)
  | call {loc} {sig : Signature} {args} (hk : e.kind = .func sig)
      (hparts : ∀ a ∈ args, Part a) :
    Spells t path tail Part e
      (.ofChildren
        { kind := .typedCall, loc, type := t.qualifyAt path sig.result, path := t.canonical path }
        args)

/-- A chain is looked up in one state and written in another one, in both of which a property
holds. -/
def Meant (I : State → Prop) (R : Node → Node → Prop) (path : List Ident) (tail : Option Node)
    (n : Node) : Prop :=
  ∃ s s' e, I s ∧ I s' ∧ s.table.resolve path = some e ∧
    Spells s'.table path tail (fun v => ∃ c ∈ partsOf tail, R c v) e n

/-- Analysis relates a node to what it makes of it: nodes are kept, with what is made of the nodes
below them, or they are chains and replaced. -/
structure Rewriting (I : State → Prop) (R : Node → Node → Prop) : Prop where
  refl : ∀ n, R n n
  keep : ∀ {h : Head} {cs cs' : List Node} {fs fs' : List (Component Node)} {b b' : Node},
    List.Forall₂ R cs cs' → List.Forall₂ (Component.Lift R) fs fs' → R b b' →
    R (.mk h cs fs b) (.mk h cs' fs' b')
  replace : ∀ {n n' : Node} {path : List Ident} {tail : Option Node},
    n.kind?.any Kind.isChain → n.chain? = some ⟨path, tail⟩ →
    Replacement (List.Forall₂ R) (List.Forall₂ (Component.Lift R)) (InParamOrder I path) tail
      n.loc n' → Meant I R path tail n' → R n n'

/-- Any relation between nodes that always holds fits what analysis does. -/
theorem trivial_rewriting (I : State → Prop) : Rewriting I fun _ _ => True :=
  ⟨fun _ => trivial, fun _ _ _ => trivial, fun _ _ _ _ => trivial⟩

/-- Components that are related to the given ones are made of what is given. -/
theorem parts_of_given {R : Node → Node → Prop} {fs'}
    (hfs : List.Forall₂ (Component.Lift R) fs fs') :
    ∀ f ∈ fs', NamedBy (some (.mk h cs fs b)) f ∧
      ∃ c ∈ partsOf (some (.mk h cs fs b)), R c f.value := by
  intro f hf
  obtain ⟨g, hg, hgf⟩ := exists_of_forall₂_right hfs hf
  cases hgf with
  | mk hvalue =>
    exact ⟨.inr ⟨_, hg, rfl⟩, _, List.mem_append_right cs (List.mem_map_of_mem hg), hvalue⟩

/-- Operands that are related to the given ones are made of what is given. -/
theorem parts_of_operands {R : Node → Node → Prop} {cs'} (hcs : List.Forall₂ R cs cs') :
    ∀ a ∈ cs', ∃ c ∈ partsOf (some (.mk h cs fs b)), R c a := by
  intro a ha
  obtain ⟨c, hc, hca⟩ := exists_of_forall₂_right hcs ha
  exact ⟨c, List.mem_append_left _ hc, hca⟩

namespace Rewriting

variable {I : State → Prop} {R : Node → Node → Prop}

theorem refl_all (hR : Rewriting I R) (cs : List Node) : List.Forall₂ R cs cs :=
  List.forall₂_same.2 fun n _ => hR.refl n

theorem refl_fields (hR : Rewriting I R) (fs : List (Component Node)) :
    List.Forall₂ (Component.Lift R) fs fs :=
  List.forall₂_same.2 fun f _ => .withValue f (hR.refl f.value)

/-- A node with other operands is kept. -/
theorem operands (hR : Rewriting I R) {cs'} (hcs : List.Forall₂ R cs cs') :
    R (.mk h cs fs b) (.mk h cs' fs b) :=
  hR.keep hcs (hR.refl_fields fs) (hR.refl b)

theorem withChildren (hR : Rewriting I R)
    (hcs : List.Forall₂ R n.children cs) : R n (n.withChildren cs) := by
  cases n with
  | absent => exact hR.refl _
  | mk h cs₀ fs b => exact hR.operands hcs

/-- A chain with another end is kept. -/
theorem withTail (hR : Rewriting I R) {tail tail' path} (hchain : n.chain? = some ⟨path, some tail⟩)
    (ht : R tail tail') : R n (n.withTail tail') := by
  rcases (Node.chain?_eq_some_iff.1 hchain).end_cases with ⟨rfl, hw⟩ | ⟨h, left, rest, fs, b, rfl, hw⟩
  · rwa [hw]
  · rw [hw]
    exact hR.operands (.cons (hR.refl _) (.cons ht (hR.refl_all _)))

end Rewriting

end Analysis

end TreeSema
