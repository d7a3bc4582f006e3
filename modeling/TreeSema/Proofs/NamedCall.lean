import TreeSema.Proofs.Confined.Type
import TreeSema.Proofs.Tandem

/-!
# Named calls are positional calls

The arguments of a call may be given by name, in any order. They are analysed in the order in which
they are written, and an argument may assign to variables, so that the ones after it are analysed in
another state. But what an argument is accepted as does not depend on the others: followed in the
state before all of them and in the one that it is come to (`Tandem`), it has the same outcome, unless
it gives a value to a variable that got its one value from an argument before it. So all arguments
are accepted just if each is accepted on its own and no two give a value to the same variable, in
whatever order they stand.

* `inTurn_iff`: when steps are accepted one after the other.
* `Harmonious.perm`: that does not depend on their order.
* `callArguments_positional`, `callArguments_named`: arguments in order and by name.
* `named_call_positional`: a call with all of its arguments named is the call with the same arguments
  in the order of the parameters.
-/
namespace TreeSema

namespace Analysis

variable {α β : Type}

/-! ## Only the table matters -/

/-- Two steps from states with the same table have the same result and end with the same table. -/
def Blind (m m' : Analysis α) : Prop :=
  ∀ s s' : State, s.table = s'.table → (m s).1 = (m' s').1 ∧ (m s).2.table = (m' s').2.table

theorem Blind.respected : Respected Eq fun _ m m' => Blind m m' := by
  refine .of_same (fun a s s' h => ⟨rfl, h⟩) (fun hm hf s s' h => ?_) (fun s s' h => ⟨h, h⟩)
    fun loc cause _ s s' h => ⟨rfl, h⟩
  obtain ⟨hresult, htable⟩ := hm s s' h
  rw [bind_apply, bind_apply, hresult]
  exact hf _ _ _ htable

theorem exprAt_blind (cfg : Config) : ∀ (k : Nat) (n : Node) (expected : Ty),
    Blind (exprAt cfg k n expected) (exprAt cfg k n expected)
  | 0, n, expected => by
    have hrefuse : ∀ s : State, (refuse cfg n.loc s).2.table = s.table := by
      intro s
      unfold refuse
      rw [bind_apply, get_apply]
      cases s.depthReported <;> rfl
    intro s s' h
    exact ⟨rfl, (hrefuse s).trans (h.trans (hrefuse s').symm)⟩
  | k + 1, n, expected =>
    have hbelow := exprAt_blind cfg k
    Blind.respected.exprStep hbelow (Blind.respected.assignName (fun name s s' h =>
      ⟨rfl, congrArg (·.modify name Entry.withValue) h⟩) hbelow) expected n

/-! ## Steps in turn -/

/-- Steps one after the other, until one is rejected. -/
def inTurn : List (Analysis (Node × Bool)) → Analysis (Option (List Node))
  | [] => return some []
  | m :: rest => do
    let r ← m
    if r.2 then return (← inTurn rest).map (r.1 :: ·) else return none

/-- A step that may be followed in two states and reports an error just if it is rejected. -/
structure Regular (m : Analysis (Node × Bool)) : Prop where
  tandem : Tandem m m
  concludes : Concludes true m (·.2)

/-- From a state, no variable gets its one value in both of two steps. -/
def Apart (s : State) (m m' : Analysis (Node × Bool)) : Prop :=
  ∀ name, (m s).2.table.Spent name → (m' s).2.table.Spent name → s.table.Spent name

/-- From a state, each of some steps is accepted, and no variable gets its one value in two. -/
structure Harmonious (s : State) (ms : List (Analysis (Node × Bool))) : Prop where
  clean : ∀ m ∈ ms, (m s).2.Clean
  apart : ms.Pairwise (Apart s)

variable {s s' : State} {ms ms' : List (Analysis (Node × Bool))}

theorem Apart.symm {m m'} (h : Apart s m m') : Apart s m' m :=
  fun name hm' hm => h name hm hm'

/-- The order makes no difference. -/
theorem Harmonious.perm (h : Harmonious s ms) (hperm : ms.Perm ms') : Harmonious s ms' where
  clean m hm := h.clean m (hperm.mem_iff.2 hm)
  apart := (hperm.pairwise_iff Apart.symm).1 h.apart

theorem inTurn_cons (m : Analysis (Node × Bool)) (rest : List (Analysis (Node × Bool))) (s : State) :
    (inTurn (m :: rest) s).1 =
      if (m s).1.2 then (inTurn rest (m s).2).1.map ((m s).1.1 :: ·) else none := by
  rw [inTurn, bind_apply]
  split <;> rfl

/-- Steps are accepted in turn just if they are harmonious from a state that lags behind, and give
no value to a variable that has its one value before them. The results are those from that state. -/
theorem inTurn_eq_some_iff (hms : ∀ m ∈ ms, Regular m) (hs : s.Clean)
    (hlags : s.table.Lags s'.table) (hs' : s'.Clean) {ns} :
    (inTurn ms s').1 = some ns ↔ Harmonious s ms ∧
      (∀ m ∈ ms, Free s.table (m s).2 s'.table) ∧ ns = ms.map fun m => (m s).1.1 := by
  induction ms generalizing s' ns with
  | nil =>
    constructor
    · intro h
      cases h
      exact ⟨⟨List.forall_mem_nil _, .nil⟩, List.forall_mem_nil _, rfl⟩
    · rintro ⟨-, -, rfl⟩
      rfl
  | cons m rest ih =>
    obtain ⟨hm, hrest⟩ := List.forall_mem_cons.1 hms
    rw [inTurn_cons]
    by_cases hok : (m s').1.2 = true
    · rw [if_pos hok, Option.map_eq_some_iff]
      have hclean := (hm.concludes.ok_iff hs').1 hok
      obtain ⟨hresult, hjoint⟩ := hm.tandem.joint hlags hs hs' (.inl hclean)
      have hkeeps := hm.tandem.right.keeps s'
      constructor
      · rintro ⟨ns', hns', rfl⟩
        obtain ⟨hharmonious, hfree, rfl⟩ := (ih hrest (hlags.trans hkeeps) hclean).1 hns'
        refine ⟨⟨List.forall_mem_cons.2 ⟨hjoint.clean, hharmonious.clean⟩,
          List.pairwise_cons.2 ⟨fun m' hm' x hx hx' => ?_, hharmonious.apart⟩⟩,
          List.forall_mem_cons.2 ⟨hjoint.free, fun m' hm' x hx hx' => ?_⟩, ?_⟩
        · exact hfree m' hm' x (hjoint.lags.spent hx) hx'
        · exact hfree m' hm' x (hkeeps.spent hx) hx'
        · rw [List.map_cons, hresult]
      · rintro ⟨⟨hcleans, hapart⟩, hfree, rfl⟩
        obtain ⟨hapart, hothers⟩ := List.pairwise_cons.1 hapart
        refine ⟨_, (ih hrest (hlags.trans hkeeps) hclean).2 ⟨⟨(List.forall_mem_cons.1 hcleans).2,
          hothers⟩, fun m' hm' x hx hx' => ?_, rfl⟩, ?_⟩
        · rcases hjoint.spent x hx with hx | hx
          · exact hfree m' (.tail _ hm') x hx hx'
          · exact hapart m' hm' x hx hx'
        · rw [List.map_cons, hresult]
    · rw [if_neg hok]
      refine ⟨fun h => (by cases h), fun h => ?_⟩
      obtain ⟨hharmonious, hfree, -⟩ := h
      obtain ⟨-, hjoint⟩ := hm.tandem.joint hlags hs hs'
        (.inr ⟨hharmonious.clean m (.head _), hfree m (.head _)⟩)
      exact absurd ((hm.concludes.ok_iff hs').2 hjoint.clean') hok

/-- Steps are accepted in turn just if they are harmonious. -/
theorem inTurn_iff (hms : ∀ m ∈ ms, Regular m) (hs : s.Clean) {ns} :
    (inTurn ms s).1 = some ns ↔ Harmonious s ms ∧ ns = ms.map fun m => (m s).1.1 := by
  have hfree : ∀ m ∈ ms, Free s.table (m s).2 s.table := fun _ _ _ hx _ => hx
  rw [inTurn_eq_some_iff hms hs (.refl _) hs]
  exact and_congr_right fun _ => ⟨fun h => h.2, fun h => ⟨hfree, h⟩⟩

/-! ## Arguments -/

end Analysis

/-- The type of the parameter with a name. -/
def Signature.typeOf (sig : Signature) (name : Ident) : Ty :=
  ((sig.param? name).map (·.1.type)).getD .unknown

theorem Signature.exists_param? {sig : Signature} {name} (h : name ∈ sig.params.map (·.name)) :
    ∃ p, sig.param? name = some p := by
  obtain ⟨p, hp, rfl⟩ := List.mem_map.1 h
  obtain ⟨i, hi, rfl⟩ := List.getElem_of_mem hp
  refine Option.isSome_iff_exists.1 (List.find?_isSome.2 ⟨(sig.params[i], i), ?_, by simp⟩)
  exact List.mk_mem_zipIdx_iff_getElem?.2 (List.getElem?_eq_getElem hi)

theorem Signature.typeOf_name {sig : Signature} (hnames : (sig.params.map (·.name)).Nodup)
    {p : Formal} (hp : p ∈ sig.params) : sig.typeOf p.name = p.type := by
  obtain ⟨q, hq⟩ := exists_param? (List.mem_map_of_mem hp)
  have hmem := List.fst_mem_of_mem_zipIdx (List.mem_of_find?_eq_some hq)
  have hname : q.1.name = p.name := by simpa using List.find?_some hq
  rw [typeOf, hq, Option.map_some, Option.getD_some,
    List.inj_on_of_nodup_map hnames hmem hp hname]

namespace Analysis

section Arguments

variable (below : ExprRule) (path : List Ident) (sig : Signature)

/-- Analyses an argument that is given to the parameter with a name. -/
def argumentFor (arg : Ident × Node) : Analysis (Node × Bool) :=
  argument below path (sig.typeOf arg.1) arg.2

/-- The steps of arguments that are given to the parameters in their order. -/
def inPlace (args : List Node) : List (Analysis (Node × Bool)) :=
  ((sig.params.map (·.name)).zip args).map (argumentFor below path sig)

variable {below path sig} {args : List Node} {fs given : List (Component Node)}

/-- What is returned of arguments that are all accepted. -/
def taken (r : List Node × Bool) : Option (List Node) := if r.2 then some r.1 else none

theorem taken_cons (n : Node) (r : List Node × Bool) :
    taken (n :: r.1, r.2) = (taken r).map (n :: ·) := by
  obtain ⟨ns, _ | _⟩ := r <;> rfl

/-- Arguments in order are steps in turn. -/
theorem arguments_inTurn {types : List Ty} (h : types.length = args.length)
    (s : State) : taken (arguments below path types args s).1 =
      (inTurn (types.zipWith (argument below path) args) s).1 := by
  induction types generalizing args s with
  | nil =>
    cases args with
    | nil => rfl
    | cons arg rest => cases h
  | cons type types ih =>
    cases args with
    | nil => cases h
    | cons arg rest =>
      rw [List.zipWith_cons_cons, inTurn_cons, ← ih (Nat.succ.inj h), ← taken_cons, arguments,
        bind_apply, List.headD_cons, List.tail_cons]
      rcases argument below path type arg s with ⟨⟨arg', _ | _⟩, s₁⟩ <;> rfl

variable (below path) in
/-- So are named ones, in the order in which they are given, if they are given to parameters. -/
theorem argumentsByName_inTurn (h : ∀ f ∈ fs, f.name ∈ sig.params.map (·.name)) (s : State) :
    taken ((argumentsByName below path sig fs s).1.1.map (·.value),
        (argumentsByName below path sig fs s).1.2) =
      (inTurn (fs.map fun f => argumentFor below path sig (f.name, f.value)) s).1 := by
  induction fs generalizing s with
  | nil => rfl
  | cons f rest ih =>
    obtain ⟨hf, hrest⟩ := List.forall_mem_cons.1 h
    obtain ⟨p, hp⟩ := Signature.exists_param? hf
    have hstep : argumentFor below path sig (f.name, f.value)
        = argument below path p.1.type f.value := by
      rw [argumentFor, Signature.typeOf, hp]
      rfl
    rw [List.map_cons, inTurn_cons, ← ih hrest, ← taken_cons, hstep, argumentsByName, hp]
    dsimp only
    rw [bind_apply]
    rcases argument below path p.1.type f.value s with ⟨⟨value, _ | _⟩, s₁⟩ <;> rfl

variable (below path sig) in
/-- The names stay as they are. -/
theorem argumentsByName_names (fs : List (Component Node)) (s : State) :
    (argumentsByName below path sig fs s).1.1.map (·.name) = fs.map (·.name) := by
  induction fs generalizing s with
  | nil => rfl
  | cons f rest ih =>
    rw [argumentsByName]
    rcases sig.param? f.name with _ | ⟨param, i⟩
    · rfl
    · dsimp only
      rw [bind_apply]
      rcases argument below path param.type f.value s with ⟨⟨value, _ | _⟩, s₁⟩
      · rfl
      · exact congrArg (f.name :: ·) (ih s₁)

theorem givenValue?_of_mem (h : (given.map (·.name)).Nodup)
    {f : Component Node} (hf : f ∈ given) : givenValue? given f.name = some f.value := by
  rw [givenValue?, Keyed.find?_reverse h, (Keyed.find?_eq_some_iff h).2 ⟨hf, rfl⟩, Option.map_some]

/-- What is made of each argument is found under the name that it was given. -/
theorem givenValue?_of_pairs {g : Ident × Node → Node}
    (hpairs : given.map (fun f => (f.name, f.value)) = fs.map fun f => (f.name, g (f.name, f.value)))
    (hnodup : (given.map (·.name)).Nodup) {q} (hq : q ∈ fs.map fun f => (f.name, f.value)) :
    givenValue? given q.1 = some (g q) := by
  obtain ⟨f, hf, rfl⟩ := List.mem_map.1 hq
  have hmem : (f.name, g (f.name, f.value)) ∈ given.map fun f => (f.name, f.value) :=
    hpairs ▸ List.mem_map_of_mem hf
  obtain ⟨f', hf', heq⟩ := List.mem_map.1 hmem
  obtain ⟨hname, hvalue⟩ := Prod.mk.inj heq
  rw [← hvalue, ← hname]
  exact givenValue?_of_mem hnodup hf'

/-- Arguments that are all given are put in the order of the parameters. -/
theorem inOrder_run (loc : Location) {params}
    (h : List.Forall₂ (fun p x => givenValue? given p.name = some x) params args) (s : State) :
    inOrder loc path given params s = (some args, s) := by
  induction h with
  | nil => rfl
  | cons hx _ ih =>
    rw [inOrder, hx]
    dsimp only
    rw [bind_apply, ih]
    rfl

/-- What is given to each parameter, in their order. -/
theorem forall₂_givenValue? {g : Ident × Node → Node}
    {params : List Formal} (hlength : args.length = params.length)
    (h : ∀ q ∈ (params.map (·.name)).zip args, givenValue? given q.1 = some (g q)) :
    List.Forall₂ (fun p x => givenValue? given p.name = some x) params
      (((params.map (·.name)).zip args).map g) := by
  induction params generalizing args with
  | nil => exact .nil
  | cons p params ih =>
    cases args with
    | nil => cases hlength
    | cons arg rest =>
      exact .cons (h (p.name, arg) (.head _))
        (ih (Nat.succ.inj hlength) fun q hq => h q (.tail _ hq))

/-- Named arguments are put in order after all of them are analysed. -/
theorem callArguments_byName {h : Head} (hnamed : h.named = true) {cs b s} :
    (callArguments below path sig h cs fs b s).1.2 =
      if (argumentsByName below path sig fs s).1.2 then
        (inOrder h.loc path (argumentsByName below path sig fs s).1.1 sig.params
          (argumentsByName below path sig fs s).2).1 else none := by
  unfold callArguments
  rw [if_pos hnamed, bind_apply]
  rcases argumentsByName below path sig fs s with ⟨⟨fs', _ | _⟩, s₁⟩ <;> rfl

variable (hnames : (sig.params.map (·.name)).Nodup)
  (hargs : args.length = sig.params.length) {h : Head}

include hnames hargs

variable (below path) in
omit hargs in
/-- Arguments in order are given to the parameters with the names that stand in their places. -/
theorem zip_argumentFor : inPlace below path sig args =
    (sig.params.map (·.type)).zipWith (argument below path) args := by
  have hstep : ∀ (params : List Formal) (args : List Node), (∀ p ∈ params, p ∈ sig.params) →
      ((params.map (·.name)).zip args).map (argumentFor below path sig) =
        (params.map (·.type)).zipWith (argument below path) args := by
    intro params
    induction params with
    | nil => exact fun _ _ => rfl
    | cons p params ih =>
      intro args hmem
      obtain ⟨hp, hmem⟩ := List.forall_mem_cons.1 hmem
      cases args with
      | nil => rfl
      | cons arg rest =>
        rw [List.map_cons, List.zip_cons_cons, List.map_cons, ih rest hmem, List.map_cons,
          List.zipWith_cons_cons, argumentFor, Signature.typeOf_name hnames hp]
  exact hstep sig.params args fun _ hp => hp

theorem callArguments_positional (hnamed : h.named = false) (fs : List (Component Node)) (b : Node)
    (s : State) : (callArguments below path sig h args fs b s).1.2 =
      (inTurn (inPlace below path sig args) s).1 := by
  have hcount : countArguments h.loc path sig args.length s = (true, s) := by
    unfold countArguments
    rw [hargs]
    simp only [Nat.lt_irrefl, if_false, ne_eq, not_true_eq_false]
    split <;> rfl
  have hlength : (sig.params.map (·.type)).length = args.length := by rw [List.length_map, hargs]
  rw [zip_argumentFor below path hnames, ← arguments_inTurn hlength]
  unfold callArguments
  rw [if_neg (by simp [hnamed]), bind_apply, hcount]
  dsimp only
  rw [if_pos rfl, bind_apply]
  rfl

/-- Arguments that are given by name to all parameters, in whatever order, come to the same as the
arguments in order. -/
theorem callArguments_named (hnamed : h.named = true)
    (hperm : (fs.map fun f => (f.name, f.value)).Perm ((sig.params.map (·.name)).zip args))
    (hregular : ∀ arg, Regular (argumentFor below path sig arg)) (cs : List Node) (b : Node)
    {s : State} (hs : s.Clean) : (callArguments below path sig h cs fs b s).1.2 =
      (inTurn (inPlace below path sig args) s).1 := by
  have hgiven : (fs.map (·.name)).Perm (sig.params.map (·.name)) := by
    have hfirst := hperm.map Prod.fst
    rwa [List.map_map, List.map_fst_zip (by simp [hargs])] at hfirst
  -- the steps in the order in which the arguments stand, and in that of the parameters
  have hsteps := hperm.map (argumentFor below path sig)
  have hregulars : ∀ {given : List (Ident × Node)},
      ∀ m ∈ given.map (argumentFor below path sig), Regular m :=
    List.forall_mem_map.2 fun arg _ => hregular arg
  have hturn := argumentsByName_inTurn below path
    (fun f hf => hgiven.mem_iff.1 (List.mem_map_of_mem hf)) s
  have hsame := argumentsByName_names below path sig fs s
  rw [callArguments_byName hnamed]
  cases hok : (argumentsByName below path sig fs s).1.2 with
  | false =>
    rw [hok] at hturn
    refine (Option.eq_none_iff_forall_ne_some.2 fun ns hns => ?_).symm
    obtain ⟨hharmonious, -⟩ := (inTurn_iff hregulars hs).1 hns
    have hnamed := (inTurn_iff hregulars hs).2 ⟨hharmonious.perm hsteps.symm, rfl⟩
    rw [List.map_map] at hnamed
    cases hturn.trans hnamed
  | true =>
    rw [hok] at hturn
    have hnamed : (inTurn ((fs.map fun f => (f.name, f.value)).map (argumentFor below path sig)) s).1
        = some ((argumentsByName below path sig fs s).1.1.map (·.value)) := by
      rw [List.map_map]
      exact hturn.symm
    obtain ⟨hharmonious, hvalues⟩ := (inTurn_iff hregulars hs).1 hnamed
    have hpairs : (argumentsByName below path sig fs s).1.1.map (fun f => (f.name, f.value))
        = fs.map fun f => (f.name, (argumentFor below path sig (f.name, f.value) s).1.1) := by
      rw [← List.zip_map', hsame, hvalues, List.map_map, List.map_map, List.zip_map']
      rfl
    have hnodup : ((argumentsByName below path sig fs s).1.1.map (·.name)).Nodup :=
      hsame ▸ hgiven.nodup_iff.2 hnames
    have hall : ∀ q ∈ (sig.params.map (·.name)).zip args,
        givenValue? (argumentsByName below path sig fs s).1.1 q.1
          = some (argumentFor below path sig q s).1.1 :=
      fun q hq => givenValue?_of_pairs (g := fun q => (argumentFor below path sig q s).1.1) hpairs
        hnodup (hperm.mem_iff.2 hq)
    rw [if_pos rfl, inOrder_run h.loc (forall₂_givenValue? hargs hall)]
    refine ((inTurn_iff hregulars hs).2 ⟨hharmonious.perm hsteps, ?_⟩).symm
    rw [List.map_map]
    rfl

end Arguments

/-! ## Calls -/

/-- A node and its type, if it was accepted. -/
def accepted (r : Typed) : Option (Node × Ty) := r.2.map fun type => (r.1, type)

/-- The node that takes the place of a call, and its type. -/
def typedCall (t : Symbols) (loc : Location) (path : List Ident) (sig : Signature)
    (args : List Node) : Node × Ty :=
  let type := t.qualifyAt path sig.result
  (.ofChildren { kind := .typedCall, loc, type, path := t.canonical path } args, type)

/-- What a chain that names a function and ends in a call is accepted as, given the arguments if they
are accepted. -/
def callWith (t : Symbols) (n : Node) (path : List Ident) (sig : Signature)
    (args : Option (List Node)) : Option (Node × Ty) :=
  if n.kind? = some .dot ∧ t.startsAtValue n = true then none
  else if sig.flags.has .unsafeFn && !(t.context.safety == .unsafely) then none
  else args.map (typedCall t n.loc path sig)

theorem callWith_eq_some {t} {n : Node} {path sig args p} (h : callWith t n path sig args = some p)
    : ∃ args', args = some args' ∧ p = typedCall t n.loc path sig args' := by
  unfold callWith at h
  split at h
  · cases h
  · split at h
    · cases h
    · obtain ⟨args', hargs, rfl⟩ := Option.map_eq_some_iff.1 h
      exact ⟨args', hargs, rfl⟩

section Calls

variable {below : ExprRule} (hb : ∀ n expected, Marking (below n expected)) {n : Node}
  {path : List Ident} {sig : Signature} {h : Head} {cs : List Node} {fs : List (Component Node)}
  {b : Node} (hk : h.kind = .call)

include hb hk

/-- What a call is accepted as depends on its arguments only. -/
theorem call_accepted (s : State) :
    accepted (call below n ⟨path, some (.mk h cs fs b)⟩ sig s).1 =
      if sig.flags.has .unsafeFn && !(s.table.context.safety == .unsafely) then none
      else (callArguments below path sig h cs fs b s).1.2.map (typedCall s.table n.loc path sig) := by
  have hkeeps := (@Respected.callArguments _ _ Marking.respected below below hb path sig h cs fs
    b).keeps s
  have hunsafe : unsafeAllowed s = (s.table.context.safety == .unsafely, s) := rfl
  unfold call
  dsimp only
  rw [if_neg (by simp [hk]), bind_apply, hunsafe]
  dsimp only
  split
  · rfl
  · rw [bind_apply]
    rcases hargs : callArguments below path sig h cs fs b s with ⟨⟨tail, _ | args⟩, s₁⟩
    · rfl
    · rw [hargs] at hkeeps
      change some (typedCall s₁.table n.loc path sig args)
        = some (typedCall s.table n.loc path sig args)
      unfold typedCall
      rw [hkeeps.same₂ Symbols.qualifyAt_filled, hkeeps.same (fun t path => t.canonical_filled path)]

variable (hchain : n.chain? = some ⟨path, some (.mk h cs fs b)⟩)

include hchain

variable (below) in
omit hb in
/-- A call on a value is not accepted, since values have no functions. -/
theorem member_rejected (hdot : n.kind? = some .dot) (s : State) :
    (member below n.head n.children s).1.2 = none := by
  rcases (Node.chain?_eq_some_iff.1 hchain).end_cases with ⟨rfl, -⟩ | ⟨hd, left, rest, fs', b', rfl, -⟩
  · cases (Option.some.inj hdot).symm.trans hk
  · unfold member
    dsimp only [Node.head, Node.children]
    rw [hk]
    dsimp only
    rw [bind_apply]
    rcases below left .unknown s with ⟨⟨left', _ | type⟩, s₁⟩ <;> rfl

/-- A chain that ends in a call and names a function is accepted as that call. -/
theorem access_accepted {s : State} {e : SymbolEntry} (he : s.table.resolve path = some e)
    (hsig : e.kind = .func sig) : accepted (access below n s).1 =
      callWith s.table n path sig (callArguments below path sig h cs fs b s).1.2 := by
  unfold access callWith
  rw [bind_apply, symbols_apply]
  dsimp only
  split
  · rename_i hmember
    have hnone := member_rejected below hk hchain hmember.1 s
    rw [bind_apply]
    generalize member below n.head n.children s = r at hnone
    obtain ⟨⟨cs', type⟩, s₁⟩ := r
    cases hnone
    rfl
  · rw [hchain]
    dsimp only
    rw [he]
    dsimp only
    unfold named
    rw [hsig]
    exact call_accepted hb hk s

omit hb in
/-- A chain with another call to the same function at its end. -/
theorem withTail_call {h' : Head} (hk' : h'.kind = .call) (hname : h'.name = h.name)
    (hloc : h'.loc = h.loc) (cs' : List Node) (fs' : List (Component Node)) (b' : Node) :
    (n.withTail (.mk h' cs' fs' b')).chain? = some ⟨path, some (.mk h' cs' fs' b')⟩ ∧
      (n.withTail (.mk h' cs' fs' b')).loc = n.loc ∧
      (n.withTail (.mk h' cs' fs' b')).kind? = n.kind? := by
  have hw := Node.chain?_eq_some_iff.1 hchain
  rcases hw.end_cases with ⟨rfl, hwith⟩ | ⟨hd, left, rest, fs₁, b₁, rfl, hwith⟩
  · rw [hwith]
    cases hw with
    | built _ =>
      refine ⟨Node.chain?_eq_some_iff.2 (hname ▸ .built (.inl hk')), hloc, ?_⟩
      rw [Node.kind?, Node.kind?, hk, hk']
    | access hkind _ _ => rcases hkind with hkind | hkind <;> cases hk.symm.trans hkind
  · rw [hwith]
    cases hw with
    | access hkind hleft hright =>
      refine ⟨Node.chain?_eq_some_iff.2 (.access hkind hleft ?_), rfl, rfl⟩
      cases hright with
      | built _ => exact hname ▸ .built (.inl hk')
      | assigned hassign _ => cases hk.symm.trans hassign

end Calls

theorem isSome_accepted (r : Typed) : (accepted r).isSome = r.2.isSome := Option.isSome_map

theorem accepted_eq_some_iff {r p} : accepted r = some p ↔ r = (p.1, some p.2) := by
  obtain ⟨n, _ | type⟩ := r
  · exact ⟨fun h => (by cases h), fun h => (by cases h)⟩
  · obtain ⟨n', type'⟩ := p
    simp [accepted]

section Levels

variable (cfg : Config) (k : Nat) (expected : Ty) {s : State} {n : Node} {path : List Ident}
  {h : Head} {cs : List Node} {fs : List (Component Node)} {b : Node} {e : SymbolEntry}
  {sig : Signature} {args : List Node}

theorem argumentFor_regular (path : List Ident) (sig : Signature) (arg : Ident × Node) :
    Regular (argumentFor (exprAt cfg k) path sig arg) where
  tandem := Tandem.respected.argument (exprAt_tandem cfg k) path _ _
  concludes := argument_concludes (exprAt_concludes cfg k) path _ _

theorem exprAt_call (hchain : n.chain? = some ⟨path, some (.mk h cs fs b)⟩) (hcall : h.kind = .call)
    (he : s.table.resolve path = some e) (hsig : e.kind = .func sig) :
    accepted (exprAt cfg (k + 1) n expected s).1 =
      callWith s.table n path sig (callArguments (exprAt cfg k) path sig h cs fs b s).1.2 := by
  have hkind : n.kind?.any Kind.isChain = true := by
    cases Node.chain?_eq_some_iff.1 hchain with
    | built hk => exact Kind.isChain_iff.2 (hk.imp_right .inl)
    | access hk => exact Kind.isChain_iff.2 (.inr (.inr hk))
  change accepted (exprStep (exprAt cfg k) expected n s).1 = _
  rw [exprStep_chain hkind]
  exact access_accepted (fun n expected => (exprAt_tandem cfg k n expected).left) hcall hchain he hsig

variable (hchain : n.chain? = some ⟨path, some (.mk h cs fs b)⟩) (hcall : h.kind = .call)
  (he : s.table.resolve path = some e) (hsig : e.kind = .func sig)
  (hnames : (sig.params.map (·.name)).Nodup) (hargs : args.length = sig.params.length)

include hchain hcall he hsig hnames hargs

/-- Arguments by name and in order lead to the same call. -/
theorem exprAt_named (hs : s.Clean) (hnamed : h.named = true)
    (hperm : (fs.map fun f => (f.name, f.value)).Perm ((sig.params.map (·.name)).zip args)) :
    accepted (exprAt cfg (k + 1) n expected s).1 =
      callWith s.table n path sig (inTurn (inPlace (exprAt cfg k) path sig args) s).1 := by
  rw [exprAt_call cfg k expected hchain hcall he hsig,
    callArguments_named hnames hargs hnamed hperm (argumentFor_regular cfg k path sig) cs b hs]

theorem exprAt_positional :
    accepted (exprAt cfg (k + 1) (n.withTail (.ofChildren { h with named := false } args)) expected
        s).1 =
      callWith s.table n path sig (inTurn (inPlace (exprAt cfg k) path sig args) s).1 := by
  have hcall' : ({ h with named := false } : Head).kind = .call := hcall
  obtain ⟨hchain', hloc, hkind⟩ := withTail_call hcall hchain hcall' rfl rfl args [] .absent
  have hstart := startsAtValue_congr s.table
    ((congrArg (Option.map (·.path)) hchain').trans (congrArg (Option.map (·.path)) hchain).symm)
  rw [Node.ofChildren, exprAt_call cfg k expected hchain' hcall' he hsig,
    callArguments_positional hnames hargs rfl]
  unfold callWith
  rw [hloc, hkind, hstart]

end Levels

/-- A call to a stored function that names its arguments, one for each parameter and in any order, is
accepted just if the call with the same arguments in the order of the parameters is, from the same
state. Both are then replaced by the same call, with its type, the full name of the function and an
argument for each parameter. -/
theorem named_call_positional {cfg : Config} {schedule : Schedule} {tree : Node} {s : State}
    (hs : Reached cfg schedule tree s) {n : Node} {path : List Ident} {h : Head} {cs : List Node}
    {fs : List (Component Node)} {b : Node}
    (hchain : n.chain? = some ⟨path, some (.mk h cs fs b)⟩) (hcall : h.kind = .call)
    (hnamed : h.named = true) {e : SymbolEntry} {sig : Signature}
    (he : s.table.resolve path = some e) (hsig : e.kind = .func sig) {args : List Node}
    (hargs : args.length = sig.params.length)
    (hperm : (fs.map fun f => (f.name, f.value)).Perm ((sig.params.map (·.name)).zip args))
    (k : Nat) (expected : Ty) :
    let positional := n.withTail (.ofChildren { h with named := false } args)
    ((exprAt cfg k n expected s).1.2.isSome ↔ (exprAt cfg k positional expected s).1.2.isSome) ∧
      ((exprAt cfg k n expected s).1.2.isSome → ∃ args' : List Node, args'.length = args.length ∧
        let type := s.table.qualifyAt path sig.result
        let node := Node.ofChildren
          { kind := .typedCall, loc := n.loc, type, path := s.table.canonical path } args'
        (exprAt cfg k n expected s).1 = (node, some type) ∧
          (exprAt cfg k positional expected s).1 = (node, some type)) := by
  intro positional
  have hnames := (hs.lawful.resolve he).params sig hsig
  let s₀ : State := { table := s.table }
  have hblind : ∀ n, (exprAt cfg k n expected s).1 = (exprAt cfg k n expected s₀).1 :=
    fun n => (exprAt_blind cfg k n expected s s₀ rfl).1
  rw [hblind, hblind]
  cases k with
  | zero => exact ⟨Iff.rfl, fun h => absurd h Bool.false_ne_true⟩
  | succ k =>
    have hs₀ : s₀.Clean := ⟨clean_init.findings, rfl⟩
    have hnamed := exprAt_named cfg k expected (s := s₀) hchain hcall he hsig hnames hargs hs₀ hnamed
      hperm
    have hsame := hnamed.trans
      (exprAt_positional cfg k expected (s := s₀) hchain hcall he hsig hnames hargs).symm
    refine ⟨by rw [← isSome_accepted, hsame, isSome_accepted], fun haccepted => ?_⟩
    rw [← isSome_accepted] at haccepted
    obtain ⟨p, hp⟩ := Option.isSome_iff_exists.1 haccepted
    obtain ⟨args', hargs', rfl⟩ := callWith_eq_some (hnamed.symm.trans hp)
    refine ⟨args', ?_, accepted_eq_some_iff.1 hp, accepted_eq_some_iff.1 (hsame.symm.trans hp)⟩
    have hregular : ∀ m ∈ inPlace (exprAt cfg k) path sig args, Regular m :=
      List.forall_mem_map.2 fun arg _ => argumentFor_regular cfg k path sig arg
    rw [((inTurn_iff hregular hs₀).1 hargs').2]
    simp [inPlace, hargs]

/-- The argument that gives a variable its one value may be written last or first. -/
theorem named_call_positional_assigned :
    let integer : Node := .leaf { kind := .int, loc := {}, integer := 7 }
    let assigned : Node := plainAssignment "x" (.leaf { kind := .tuple, loc := {} })
    let function : Node := .mk
      { kind := .funcDef, loc := {}, name := .name "f", type := .unit,
        params := [{ name := .name "a", type := .unit }, { name := .name "b", type := .basic .i32 }] }
      [] [] (.ofChildren { kind := .block, loc := {} } [])
    let call : Node := .mk { kind := .call, loc := {}, name := .name "f", named := true } []
      [⟨.name "b", .unknown, integer, {}⟩, ⟨.name "a", .unknown, assigned, {}⟩] .absent
    let positional : Node :=
      .ofChildren { kind := .call, loc := {}, name := .name "f" } [assigned, integer]
    let tree : Node := .ofChildren { kind := .program, loc := {} }
      [.var "x" false .unit [], function, call]
    let cfg : Config := { maxDepth := 4 }
    ∃ s, Reached cfg .written tree s ∧ (exprAt cfg 3 call .unknown s).1.2 = some .unit ∧
      (exprAt cfg 3 call .unknown s).1 = (exprAt cfg 3 positional .unknown s).1 := by
  intro integer assigned function call positional tree cfg
  let s₁ := (stmtAt cfg .written 4 none (.var "x" false .unit []) {}).2
  let s₂ := (stmtAt cfg .written 4 none function s₁).2
  have hreached : Reached cfg .written tree s₂ :=
    ⟨4, tree.children, .program rfl, ⟨4, .stmt none call s₂⟩,
      List.mem_flatMap.2 ⟨_, .tail _ (.tail _ (.head _)), .head _⟩, rfl⟩
  have haccepted : (exprAt cfg 3 call .unknown s₂).1.2 = some .unit := by decide +kernel
  have hargs : [assigned, integer].length = 2 := rfl
  obtain ⟨-, hsame⟩ := named_call_positional hreached (n := call) rfl rfl rfl rfl rfl hargs
    (.swap _ _ _) 3 .unknown
  obtain ⟨args, -, hcall, hpositional⟩ := hsame (by rw [haccepted]; rfl)
  exact ⟨s₂, hreached, haccepted, hcall.trans hpositional.symm⟩

end Analysis

end TreeSema
