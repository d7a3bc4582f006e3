import TreeSema.Proofs.Table.Layers

/-!
# What a scope leaves behind

Operations that open a scope, work in it and close it again touch no scope but the one around it,
and there only what the scope hands on when it is closed: its static entries. Inside the scope any
number of others may be opened and closed. This holds for every table, however it was made.

The operations in between are balanced: they close only scopes that they opened, and all of those.
As long as this is so, the scopes of the table fall into those that were opened since and those that
were there before, and no operation reaches the latter.

* `Table.Op.opens?`, `Table.Balanced`: how many scopes of their own operations have open.
* `Table.Above.apply`, `Table.Above.run`: the scopes that were there before stay as they are.
* `Table.scope_leaks_statics`: what is left when the scope is closed.
-/
namespace TreeSema

variable {M : Type}

/-! ## One scope -/

namespace Scope

/-- Two scopes have the same entry for a name, or none, on the same side. -/
def Agrees (name : Ident) (s s' : Scope M) : Prop :=
  find? name s.persistent = find? name s'.persistent ∧
    find? name s.transient = find? name s'.transient

theorem Agrees.get? {name} {s s' : Scope M} (h : Agrees name s s') :
    s.get? name = s'.get? name := by
  unfold Scope.get?
  rw [h.1, h.2]

theorem agrees_foldl_put {name} {es : List (Entry M)} (h : ∀ e ∈ es, e.name ≠ name) (s : Scope M) :
    Agrees name s (es.foldl put s) := by
  induction es generalizing s with
  | nil => exact ⟨rfl, rfl⟩
  | cons e es ih =>
    obtain ⟨he, hes⟩ := List.forall_mem_cons.1 h
    obtain ⟨hpersistent, htransient⟩ := ih hes (s.put e)
    exact ⟨(find?_persistent_put_of_ne s he.symm).symm.trans hpersistent,
      (find?_transient_put_of_ne s he.symm).symm.trans htransient⟩

theorem find?_put_static (s : Scope M) {e : Entry M} (he : e.static = true) :
    find? e.name (s.put e).persistent = some e ∧ find? e.name (s.put e).transient = none := by
  have hwithout : ∀ es : List (Entry M), find? e.name (without e.name es) = none := fun es =>
    find?_eq_none_iff.2 (by simp [without])
  have hpersistent := hwithout s.persistent
  refine ⟨?_, ?_⟩
  · unfold find? at hpersistent ⊢
    simp [put, he, List.find?_append, hpersistent]
  · simp [put, he, hwithout]

/-- A static entry that is put and not overwritten afterwards is there in the end. -/
theorem find?_foldl_put {es : List (Entry M)} (hnames : (es.map (·.name)).Nodup) {e : Entry M}
    (he : e ∈ es) (hstatic : e.static = true) (s : Scope M) :
    find? e.name (es.foldl put s).persistent = some e ∧
      find? e.name (es.foldl put s).transient = none := by
  induction es generalizing s with
  | nil => cases he
  | cons d es ih =>
    obtain ⟨hnew, hes⟩ := List.nodup_cons.1 hnames
    rcases List.mem_cons.1 he with rfl | he
    · have hother : ∀ d ∈ es, d.name ≠ e.name := fun d hd heq =>
        hnew (List.mem_map.2 ⟨d, hd, heq⟩)
      obtain ⟨hpersistent, htransient⟩ := agrees_foldl_put hother (s.put e)
      rw [List.foldl_cons, ← hpersistent, ← htransient]
      exact find?_put_static s hstatic
    · exact ih hes he (s.put d)

theorem order_foldl_put (es : List (Entry M)) (s : Scope M) : s.order <+: (es.foldl put s).order := by
  induction es generalizing s with
  | nil => exact List.prefix_rfl
  | cons e es ih =>
    have hput : s.order <+: (s.put e).order := by
      dsimp only [put]
      split
      · exact List.prefix_rfl
      · exact List.prefix_append ..
    exact hput.trans (ih (s.put e))

theorem context_foldl_put (es : List (Entry M)) (s : Scope M) :
    (es.foldl put s).context = s.context := by
  induction es generalizing s with
  | nil => rfl
  | cons e es ih => exact ih (s.put e)

theorem Orderly.foldl_put {s : Scope M} (h : s.Orderly) (es : List (Entry M)) :
    (es.foldl Scope.put s).Orderly := by
  induction es generalizing s with
  | nil => exact h
  | cons e es ih => exact ih (h.put e)

end Scope

/-! ## Balanced operations -/

namespace Table

/-- How many of their own scopes operations have open after one more, if `n` were open before; none
if it closes a scope that is not their own. -/
def Op.opens? (n : Nat) : Op M → Option Nat
  | .enter _ => some (n + 1)
  | .exit => if n = 0 then none else some (n - 1)
  | .insert _ => some n
  | .withSafety _ => some n

/-- Operations close only scopes that they opened, and all of those. -/
def Balanced (ops : List (Op M)) : Prop := ops.foldlM Op.opens? 0 = some 0

instance (ops : List (Op M)) : Decidable (Balanced ops) := inferInstanceAs (Decidable (_ = _))

/-- On top of some scopes there are `n + 1` that were opened since. -/
def Above (before : List (Scope M)) (n : Nat) (t : Table M) : Prop :=
  ∃ own, t.scopes = own ++ before ∧ own.length = n + 1 ∧ ∀ s ∈ own, s.Orderly

variable {before : List (Scope M)} {n : Nat} {t : Table M}

theorem above_enter (t : Table M) (context : Context) : Above t.scopes 0 (t.enter context) :=
  ⟨[_], rfl, rfl, List.forall_mem_singleton.2 (Scope.orderly_empty _)⟩

/-- What is done to the innermost scope is done to one that was opened since. -/
theorem Above.modifyCurrent (h : Above before n t) {f : Scope M → Scope M}
    (hf : ∀ s : Scope M, s.Orderly → (f s).Orderly) : Above before n (t.modifyCurrent f) := by
  obtain ⟨own, hscopes, hlength, horderly⟩ := h
  obtain ⟨outer, hcurrent, hmodify⟩ := t.scopes_eq_cons
  cases own with
  | nil => cases hlength
  | cons s own =>
    obtain ⟨rfl, rfl⟩ := List.cons.inj (hcurrent.symm.trans hscopes)
    obtain ⟨hs, hown⟩ := List.forall_mem_cons.1 horderly
    exact ⟨f t.current :: own, hmodify f, hlength, List.forall_mem_cons.2 ⟨hf _ hs, hown⟩⟩

theorem Above.exit (h : Above before (n + 1) t) : Above before n t.exit := by
  obtain ⟨own, hscopes, hlength, horderly⟩ := h
  rcases own with _ | ⟨s, _ | ⟨around, own⟩⟩
  · cases hlength
  · cases hlength
  · obtain ⟨-, horderly⟩ := List.forall_mem_cons.1 horderly
    obtain ⟨haround, hown⟩ := List.forall_mem_cons.1 horderly
    refine ⟨s.statics.foldl Scope.put around :: own, scopes_exit hscopes, by simpa using hlength, ?_⟩
    exact List.forall_mem_cons.2 ⟨haround.foldl_put _, hown⟩

/-- An operation that closes no scope but its own leaves those below as they are. -/
theorem Above.apply (h : Above before n t) {op : Op M} {n' : Nat} (hop : op.opens? n = some n') :
    Above before n' (t.apply op) := by
  cases op with
  | insert e =>
    cases hop
    exact h.modifyCurrent fun s hs => hs.put e
  | enter context =>
    cases hop
    obtain ⟨own, hscopes, hlength, horderly⟩ := h
    refine ⟨_ :: own, congrArg (List.cons _) hscopes, by simpa using hlength, ?_⟩
    exact List.forall_mem_cons.2 ⟨Scope.orderly_empty _, horderly⟩
  | exit =>
    cases n with
    | zero => cases hop
    | succ n =>
      cases hop
      exact h.exit
  | withSafety safety =>
    cases hop
    exact h.modifyCurrent fun s hs => ⟨hs.static, hs.passing, hs.order, hs.nodup⟩

/-- So do any operations that close no scope but their own. -/
theorem Above.run {ops : List (Op M)} (h : Above before n t) {n' : Nat}
    (hops : ops.foldlM Op.opens? n = some n') : Above before n' (t.run ops) := by
  induction ops generalizing t n with
  | nil =>
    cases hops
    exact h
  | cons op ops ih =>
    rw [List.foldlM_cons] at hops
    obtain ⟨k, hop, hops⟩ := Option.bind_eq_some_iff.1 hops
    exact ih (h.apply hop) hops

/-- Between opening a scope and closing it, balanced operations stand in that scope. -/
theorem run_enter_scopes (t : Table M) (context : Context) {w} (hw : Balanced w) :
    let inside := (t.enter context).run w
    inside.scopes = inside.current :: t.scopes ∧ inside.current.Orderly := by
  intro inside
  obtain ⟨own, hscopes, hlength, horderly⟩ := (above_enter t context).run hw
  obtain ⟨outer, hcurrent, -⟩ := inside.scopes_eq_cons
  obtain ⟨s, rfl⟩ := List.length_eq_one_iff.1 hlength
  obtain ⟨rfl, rfl⟩ := List.cons.inj (hcurrent.symm.trans hscopes)
  exact ⟨hcurrent, List.forall_mem_singleton.1 horderly⟩

/-! ## Closing the scope -/

/-- Only the scope around the one that is closed changes, and it gets the static entries. -/
theorem run_scope_scopes (t : Table M) (context : Context) {w} (hw : Balanced w) :
    let inside := (t.enter context).run w
    let after := t.run (.enter context :: (w ++ [.exit]))
    ∃ outer, t.scopes = t.current :: outer ∧ after.scopes = after.current :: outer ∧
      after.current = inside.current.statics.foldl Scope.put t.current := by
  intro inside after
  obtain ⟨hinside, -⟩ := run_enter_scopes t context hw
  obtain ⟨outer, hcurrent, -⟩ := t.scopes_eq_cons
  obtain ⟨outer', hcurrent', -⟩ := after.scopes_eq_cons
  have hafter : after = inside.exit := by
    change (t.enter context).run (w ++ [.exit]) = inside.exit
    rw [run, List.foldl_append]
    rfl
  have hexit : after.scopes = inside.current.statics.foldl Scope.put t.current :: outer := by
    rw [hafter]
    exact scopes_exit (hinside.trans (congrArg _ hcurrent))
  obtain ⟨heq, rfl⟩ := List.cons.inj (hcurrent'.symm.trans hexit)
  exact ⟨_, hcurrent, hcurrent', heq⟩

/-- A scope that is opened, worked in and closed leaves its static entries in the scope around it and
nothing else: all scopes are as they were, but for names that have a static entry in the scope when
it is closed, and for these the scope around it has that entry. -/
theorem scope_leaks_statics (t : Table M) (context : Context) {w : List (Op M)} (hw : Balanced w) :
    let inside := (t.enter context).run w
    let after := t.run (.enter context :: (w ++ [.exit]))
    inside.scopes = inside.current :: t.scopes ∧
      after.depth = t.depth ∧ after.contexts = t.contexts ∧
      after.scopes.tail = t.scopes.tail ∧ t.current.order <+: after.current.order ∧
      (∀ name e, inside.lookupHere name = some e → e.static = true →
        Scope.find? name after.current.persistent = some e ∧
          Scope.find? name after.current.transient = none) ∧
      ∀ name, (∀ e, inside.lookupHere name = some e → e.static = false) →
        Scope.Agrees name t.current after.current ∧ after.lookup name = t.lookup name := by
  intro inside after
  obtain ⟨hinside, horderly⟩ := run_enter_scopes t context hw
  obtain ⟨outer, hbefore, hafter, hparent⟩ := run_scope_scopes t context hw
  have hcontexts : after.contexts = t.contexts := by
    unfold contexts
    rw [hafter, hbefore, List.map_cons, List.map_cons, hparent, Scope.context_foldl_put]
  have hdepth : after.depth = t.depth := by
    have hlength := congrArg List.length hcontexts
    simpa [length_contexts, depth] using hlength
  refine ⟨hinside, hdepth, hcontexts, ?_, ?_, ?_, ?_⟩
  · rw [hafter, hbefore, List.tail_cons, List.tail_cons]
  · rw [hparent]
    exact Scope.order_foldl_put ..
  · intro name e he hstatic
    have hmem := List.mem_of_find?_eq_some (horderly.find?_persistent.2 ⟨he, hstatic⟩)
    rw [hparent, ← Scope.name_of_get? he]
    exact Scope.find?_foldl_put horderly.nodup_statics (horderly.mem_statics.2 hmem) hstatic _
  · intro name hname
    have hother : ∀ e ∈ inside.current.statics, e.name ≠ name := by
      rintro e he rfl
      have hmem := horderly.mem_statics.1 he
      cases (horderly.static e hmem).symm.trans (hname e (horderly.get?_eq (.inr hmem)))
    have hagrees := Scope.agrees_foldl_put hother t.current
    rw [← hparent] at hagrees
    refine ⟨hagrees, ?_⟩
    rw [lookup_eq_findSome?, lookup_eq_findSome?, hafter, hbefore, List.findSome?_cons,
      List.findSome?_cons, hagrees.get?]

/-- A definition leaves two scopes and takes the place of a variable; a variable of the same name as
one around the scope is forgotten. -/
theorem scope_leaks_statics_nested :
    let x : Entry Unit := .binding (.name "x") { type := .unit } {}
    let y : Entry Unit := .binding (.name "x") { type := .basic .i32 } {}
    let v : Entry Unit := .binding (.name "f") { type := .unit } {}
    let f : Entry Unit := .definition (.name "f") (.aliasDef .unit) {}
    let t := (empty : Table Unit).run [.insert x, .insert v]
    let w : List (Op Unit) := [.insert y, .enter {}, .insert f, .withSafety .unsafely, .exit]
    let after := t.run (.enter { inLoop := true } :: (w ++ [.exit]))
    Balanced w ∧ after.contexts = t.contexts ∧
      Scope.find? (.name "f") after.current.persistent = some f ∧
      after.lookup (.name "x") = t.lookup (.name "x") := by
  intro x y v f t w after
  have hw : Balanced w := by decide
  obtain ⟨-, -, hcontexts, -, -, hstatic, hother⟩ :=
    scope_leaks_statics t { inLoop := true } hw
  refine ⟨hw, hcontexts, (hstatic (.name "f") f rfl rfl).1, (hother (.name "x") ?_).2⟩
  rintro e ⟨⟩
  rfl

end Table

end TreeSema
