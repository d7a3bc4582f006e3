import TreeSema.Proofs.Coercion.Located
import Mathlib.Logic.Relation

/-!
# Types without aliases

Every name in a type that leads to an alias can be replaced by what the alias stands for, and so on
until no such name is left; only the arguments of templates are kept as they are. This comes to an
end if no alias is reached from its own target.

`Symbols.Norm` says what comes out. `Symbols.normIn` computes it, looking so many steps deep; no more
are needed than there are types in the type and in the targets of all aliases, since an alias that is
replaced does not come again in what it is replaced by.

* `Symbols.Acyclic`: no alias is reached from its own target.
* `Symbols.acyclic_of_rank`: a way to see that.
* `Symbols.normIn_total`: in a table like that every type has a normal form, found within its reach.
* `Symbols.Norm.eq_of_normIn`: there is only one.
* `Symbols.aliasValue?_norm`: what an alias stands for in the end has the same normal form.
-/
namespace TreeSema

/-! ## Parts of types -/

namespace Ty

mutual

/-- The names in a type, but for those in the arguments of templates. -/
def exposed : Ty → List (List Ident)
  | ref t _ => exposed t
  | ptr t => exposed t
  | tuple ts => exposedAll ts
  | array _ t => exposed t
  | custom path => [path]
  | _ => []

def exposedAll : List Ty → List (List Ident)
  | [] => []
  | t :: ts => exposed t ++ exposedAll ts

end

theorem exposed_of_mem {ts} {t : Ty} (h : t ∈ ts) {path} (hpath : path ∈ t.exposed) :
    path ∈ exposedAll ts := by
  induction ts with
  | nil => cases h
  | cons u ts ih =>
    rcases List.mem_cons.1 h with rfl | h
    · exact List.mem_append_left _ hpath
    · exact List.mem_append_right _ (ih h)

theorem size_le_of_mem {ts} {t : Ty} (h : t ∈ ts) : t.size ≤ sizeAll ts := by
  induction ts with
  | nil => cases h
  | cons u ts ih =>
    unfold sizeAll
    rcases List.mem_cons.1 h with rfl | h
    · omega
    · have := ih h
      omega

theorem size_pos (t : Ty) : 0 < t.size := by
  cases t <;> simp [size]

mutual

theorem size_qualify (modules : List Ident) : ∀ t : Ty, (t.qualify modules).size = t.size
  | ref t _ => congrArg (· + 1) (size_qualify modules t)
  | ptr t => congrArg (· + 1) (size_qualify modules t)
  | tuple ts => congrArg (· + 1) (sizeAll_qualifyAll modules ts)
  | array _ t => congrArg (· + 1) (size_qualify modules t)
  | template _ ts => congrArg (· + 1) (sizeAll_qualifyAll modules ts)
  | custom _ => rfl
  | unknown | basic _ | unit => rfl

theorem sizeAll_qualifyAll (modules : List Ident) : ∀ ts : List Ty,
    sizeAll (qualifyAll modules ts) = sizeAll ts
  | [] => rfl
  | t :: ts => by
    rw [qualifyAll, sizeAll, sizeAll, size_qualify, sizeAll_qualifyAll]

end

mutual

theorem exposed_qualify (modules : List Ident) : ∀ t : Ty,
    (t.qualify modules).exposed = t.exposed.map (modules ++ ·)
  | ref t _ => exposed_qualify modules t
  | ptr t => exposed_qualify modules t
  | tuple ts => exposedAll_qualifyAll modules ts
  | array _ t => exposed_qualify modules t
  | custom _ => rfl
  | template _ _ | unknown | basic _ | unit => rfl

theorem exposedAll_qualifyAll (modules : List Ident) : ∀ ts : List Ty,
    exposedAll (qualifyAll modules ts) = (exposedAll ts).map (modules ++ ·)
  | [] => rfl
  | t :: ts => by
    rw [qualifyAll, exposedAll, exposedAll, exposed_qualify, exposedAll_qualifyAll, List.map_append]

end

/-- Has a type no parts? The arguments of a template are none. -/
def isPlain : Ty → Bool
  | ref _ _ => false
  | ptr _ => false
  | tuple _ => false
  | array _ _ => false
  | _ => true

/-- Two types are the same but for their parts, which are related. -/
inductive Over (R : Ty → Ty → Prop) : Ty → Ty → Prop
  | ref {t v : Ty} {m} (h : R t v) : Over R (ref t m) (ref v m)
  | ptr {t v : Ty} (h : R t v) : Over R (ptr t) (ptr v)
  | array {n : Int} {t v : Ty} (h : R t v) : Over R (array n t) (array n v)
  | tuple {ts vs} (h : List.Forall₂ R ts vs) : Over R (tuple ts) (tuple vs)
  | plain {t : Ty} (h : t.isPlain = true) : Over R t t

theorem Over.mono {R S : Ty → Ty → Prop} (hRS : ∀ t v, R t v → S t v) {t v} (h : Over R t v) :
    Over S t v := by
  cases h with
  | ref h => exact .ref (hRS _ _ h)
  | ptr h => exact .ptr (hRS _ _ h)
  | array h => exact .array (hRS _ _ h)
  | tuple h => exact .tuple (h.imp hRS)
  | plain h => exact .plain h

/-- If the parts are determined, the whole is. -/
theorem Over.unique {R S : Ty → Ty → Prop} (hRS : ∀ t v v', R t v → S t v' → v = v') {t v v'}
    (h : Over R t v) (h' : Over S t v') : v = v' := by
  cases h with
  | ref h =>
    cases h' with
    | ref h' => rw [hRS _ _ _ h h']
    | plain h' => cases h'
  | ptr h =>
    cases h' with
    | ptr h' => rw [hRS _ _ _ h h']
    | plain h' => cases h'
  | array h =>
    cases h' with
    | array h' => rw [hRS _ _ _ h h']
    | plain h' => cases h'
  | tuple h =>
    cases h' with
    | tuple h' => rw [forall₂_unique hRS h h']
    | plain h' => cases h'
  | plain h =>
    cases h' with
    | plain => rfl
    | _ => cases h

end Ty

namespace Symbols

variable {t : Symbols}

variable {path : List Ident} {ty target v : Ty} {n : Nat}

/-! ## Aliases that are not reached from themselves -/

/-- What the alias that a path leads to stands for, as it is written from here. -/
def standsFor? (t : Symbols) (path : List Ident) : Option Ty :=
  match t.resolve path with
  | some ⟨_, _, .aliasDef target, _⟩ => some (target.qualify (t.leadingModules path.dropLast))
  | _ => none

/-- A path leads to an alias whose target has another path among its names. -/
def Mentions (t : Symbols) (path path' : List Ident) : Prop :=
  ∃ target, t.standsFor? path = some target ∧ path' ∈ target.exposed

/-- No alias is reached from its own target, through whatever aliases and types. -/
def Acyclic (t : Symbols) : Prop :=
  ∀ path path', Relation.TransGen t.Mentions path path' → (t.standsFor? path').isSome →
    t.canonical path' ≠ t.canonical path

theorem aliasStep?_custom (path : List Ident) :
    t.aliasStep? (.custom path) = (t.standsFor? path).map fun target => (t.canonical path, target) := by
  unfold aliasStep? standsFor?
  rcases hresolve : t.resolve path with _ | ⟨_, _, kind, _⟩
  · simp [Table.aliasStepBy, show t.resolveBy ModuleBody.get path = none from hresolve]
  · have hresolve' : t.resolveBy ModuleBody.get path = some _ := hresolve
    cases kind <;> simp [Table.aliasStepBy, hresolve', canonical, leadingModules]

/-- An alias is one of those that the table has, with a target of the same size. -/
theorem mem_located_of_standsFor? (h : t.standsFor? path = some ty) :
    ∃ target, (t.canonical path, target) ∈ t.located ∧ ty.size = target.size := by
  unfold standsFor? at h
  split at h
  · rename_i target _ he
    cases h
    exact ⟨target, mem_located_of_resolve he rfl, Ty.size_qualify _ _⟩
  · cases h

/-- The names of a type are all reached from the target of an alias. -/
def Under (t : Symbols) (key : List Ident) (ty : Ty) : Prop :=
  ∀ path' ∈ ty.exposed, ∃ path, t.canonical path = key ∧ Relation.TransGen t.Mentions path path'

variable {visited : List (List Ident)}

/-- An alias does not come again under itself. -/
theorem Acyclic.not_visited (ht : t.Acyclic) (hunder : ∀ key ∈ visited, t.Under key (.custom path))
    (h : t.standsFor? path = some target) : t.canonical path ∉ visited := by
  intro hvisited
  obtain ⟨path₀, hkey, hreach⟩ := hunder _ hvisited path (List.mem_singleton.2 rfl)
  exact ht path₀ path hreach (by simp [h]) hkey.symm

/-- What is under some aliases and is replaced by the target of one more is under all of them. -/
theorem under_target (h : t.standsFor? path = some target)
    (hunder : ∀ key ∈ visited, t.Under key (.custom path)) :
    ∀ key ∈ t.canonical path :: visited, t.Under key target := by
  intro key hkey path' hpath'
  have hmentions : t.Mentions path path' := ⟨target, h, hpath'⟩
  rcases List.mem_cons.1 hkey with rfl | hkey
  · exact ⟨path, rfl, .single hmentions⟩
  · obtain ⟨path₀, hcanonical, hreach⟩ := hunder key hkey path (List.mem_singleton.2 rfl)
    exact ⟨path₀, hcanonical, hreach.tail hmentions⟩

theorem ne_nil_of_standsFor? (h : (t.standsFor? path).isSome) : path ≠ [] := by
  rintro rfl
  cases h

theorem getLastD_canonical (hpath : path ≠ []) :
    (t.canonical path).getLastD .missing = path.getLastD .missing := by
  rw [canonical_eq t hpath, List.getLastD_concat]

/-- The names in the target of each alias rank below the name of the alias. -/
def Ranked (t : Symbols) (rank : Ident → Nat) : Prop :=
  ∀ a ∈ t.located, ∀ path ∈ a.2.exposed,
    path ≠ [] ∧ rank (path.getLastD .missing) < rank (a.1.getLastD .missing)

instance (t : Symbols) (rank : Ident → Nat) : Decidable (t.Ranked rank) :=
  inferInstanceAs (Decidable (∀ a ∈ t.located, ∀ path ∈ a.2.exposed,
    path ≠ [] ∧ rank (path.getLastD .missing) < rank (a.1.getLastD .missing)))

theorem Ranked.lt_of_mentions {rank : Ident → Nat} (h : t.Ranked rank) {path' : List Ident}
    (hmentions : t.Mentions path path') :
    rank (path'.getLastD .missing) < rank (path.getLastD .missing) := by
  obtain ⟨ty, hty, hmem⟩ := hmentions
  have hpath := ne_nil_of_standsFor? (t := t) (by rw [hty]; rfl)
  unfold standsFor? at hty
  split at hty
  · rename_i target _ he
    cases hty
    rw [Ty.exposed_qualify] at hmem
    obtain ⟨inside, hinside, rfl⟩ := List.mem_map.1 hmem
    obtain ⟨hne, hlt⟩ := h _ (mem_located_of_resolve he rfl) inside hinside
    rw [getLastD_canonical hpath] at hlt
    rwa [List.getLastD_eq_getLast?, List.getLast?_append_of_ne_nil _ hne,
      ← List.getLastD_eq_getLast?]
  · cases hty

/-- If the names in the target of each alias rank below the name of the alias, no alias is reached
from its own target. -/
theorem acyclic_of_rank (rank : Ident → Nat) (h : t.Ranked rank) : t.Acyclic := by
  intro path path' hreach hsome heq
  have hlt : rank (path'.getLastD .missing) < rank (path.getLastD .missing) := by
    clear heq hsome
    induction hreach with
    | single hmentions => exact h.lt_of_mentions hmentions
    | tail _ hmentions ih => exact Nat.lt_trans (h.lt_of_mentions hmentions) ih
  have hpath : path ≠ [] := by
    obtain ⟨path₁, ⟨target, htarget, -⟩, -⟩ := Relation.TransGen.head'_iff.1 hreach
    exact ne_nil_of_standsFor? (t := t) (by rw [htarget]; rfl)
  rw [← getLastD_canonical (t := t) hpath, ← heq,
    getLastD_canonical (ne_nil_of_standsFor? hsome)] at hlt
  exact Nat.lt_irrefl _ hlt

/-! ## Normal forms -/

/-- A type with every name that leads to an alias replaced by what the alias stands for in the end. -/
inductive Norm (t : Symbols) : Ty → Ty → Prop
  | follow {path : List Ident} {target v : Ty} (h : t.standsFor? path = some target)
      (hv : Norm t target v) : Norm t (.custom path) v
  | parts {ty v : Ty} (h : ∀ path, ty = .custom path → t.standsFor? path = none)
      (hv : Ty.Over (Norm t) ty v) : Norm t ty v

/-- The normal form of a type, looking at most so many steps deep. -/
def normIn (t : Symbols) : Nat → Ty → Option Ty
  | 0, _ => none
  | n + 1, .custom path =>
    match t.standsFor? path with
    | some target => normIn t n target
    | none => some (.custom path)
  | n + 1, .ref target m => (normIn t n target).map (.ref · m)
  | n + 1, .ptr target => (normIn t n target).map .ptr
  | n + 1, .array size elem => (normIn t n elem).map (.array size)
  | n + 1, .tuple elems => (elems.mapM (normIn t n)).map .tuple
  | _ + 1, ty => some ty

theorem mapM_eq_some_iff {f : Ty → Option Ty} {ts vs : List Ty} :
    ts.mapM f = some vs ↔ List.Forall₂ (fun t v => f t = some v) ts vs := by
  induction ts generalizing vs with
  | nil => cases vs <;> simp
  | cons t ts ih =>
    cases vs with
    | nil => simp [List.mapM_cons, Option.bind_eq_some_iff]
    | cons v vs =>
      rw [List.forall₂_cons, ← ih, List.mapM_cons]
      cases f t <;> cases ts.mapM f <;> simp

/-- A step deeper: an alias is followed, or the parts are taken one by one. -/
theorem normIn_succ : t.normIn (n + 1) ty = some v ↔
    (∃ path target, ty = .custom path ∧ t.standsFor? path = some target ∧
      t.normIn n target = some v) ∨
    ((∀ path, ty = .custom path → t.standsFor? path = none) ∧
      Ty.Over (fun ty v => t.normIn n ty = some v) ty v) := by
  constructor
  · intro h
    cases ty with
    | custom path =>
      unfold normIn at h
      split at h
      · rename_i target htarget
        exact .inl ⟨path, target, rfl, htarget, h⟩
      · rename_i hnone
        cases h
        exact .inr ⟨fun path' heq => by cases heq; exact hnone, .plain rfl⟩
    | ref target m =>
      obtain ⟨w, hw, rfl⟩ := Option.map_eq_some_iff.1 h
      exact .inr ⟨nofun, .ref hw⟩
    | ptr target =>
      obtain ⟨w, hw, rfl⟩ := Option.map_eq_some_iff.1 h
      exact .inr ⟨nofun, .ptr hw⟩
    | array size elem =>
      obtain ⟨w, hw, rfl⟩ := Option.map_eq_some_iff.1 h
      exact .inr ⟨nofun, .array hw⟩
    | tuple elems =>
      obtain ⟨ws, hws, rfl⟩ := Option.map_eq_some_iff.1 h
      exact .inr ⟨nofun, .tuple (mapM_eq_some_iff.1 hws)⟩
    | _ =>
      cases h
      exact .inr ⟨nofun, .plain rfl⟩
  · rintro (⟨path, target, rfl, htarget, h⟩ | ⟨hnone, h⟩)
    · rw [normIn, htarget]
      exact h
    · cases h with
      | ref h => rw [normIn, h]; rfl
      | ptr h => rw [normIn, h]; rfl
      | array h => rw [normIn, h]; rfl
      | tuple h => rw [normIn, mapM_eq_some_iff.2 h]; rfl
      | plain h =>
        cases ty with
        | custom path => rw [normIn, hnone path rfl]
        | ref | ptr | array | tuple => cases h
        | _ => rfl

theorem pos_of_normIn (h : t.normIn n ty = some v) : 0 < n := by
  cases n with
  | zero => cases h
  | succ n => exact Nat.succ_pos n

/-- What is computed is a normal form. -/
theorem norm_of_normIn (h : t.normIn n ty = some v) : t.Norm ty v := by
  induction n generalizing ty v with
  | zero => cases h
  | succ n ih =>
    rcases normIn_succ.1 h with ⟨path, target, rfl, htarget, h⟩ | ⟨hnone, h⟩
    · exact .follow htarget (ih h)
    · exact .parts hnone (h.mono fun _ _ => ih)

/-- There is no other normal form than the one that is computed. -/
theorem Norm.eq_of_normIn {v'} (h' : t.Norm ty v') (h : t.normIn n ty = some v) : v' = v := by
  induction n generalizing ty v v' with
  | zero => cases h
  | succ n ih =>
    rcases normIn_succ.1 h with ⟨path, target, rfl, htarget, h⟩ | ⟨hnone, h⟩
    · cases h' with
      | follow htarget' hv =>
        cases htarget.symm.trans htarget'
        exact ih hv h
      | parts hnone => cases htarget.symm.trans (hnone path rfl)
    · cases h' with
      | follow htarget => cases htarget.symm.trans (hnone _ rfl)
      | parts _ hv =>
        have hparts : ∀ part w w', t.normIn n part = some w → t.Norm part w' → w = w' :=
          fun _ _ _ hw hw' => (ih hw' hw).symm
        exact (h.unique hparts hv).symm

/-- With enough steps every type has a normal form: what is left of the aliases pays for their
targets, and the size of the type for its parts. -/
theorem normIn_of_left (ht : t.Acyclic) (visited : List (List Ident))
    (hunder : ∀ key ∈ visited, t.Under key ty)
    (hn : ty.size + Alias.left Ty.size visited t.located ≤ n) : ∃ v, t.normIn n ty = some v := by
  induction n generalizing ty visited with
  | zero =>
    have := ty.size_pos
    omega
  | succ n ih =>
    have hpart : ∀ part : Ty, part.size + 1 ≤ ty.size → (∀ path ∈ part.exposed, path ∈ ty.exposed) →
        ∃ v, t.normIn n part = some v := by
      intro part hsize hexposed
      refine ih visited (fun key hkey path hpath => hunder key hkey path (hexposed path hpath)) ?_
      omega
    cases ty with
    | custom path =>
      cases htarget : t.standsFor? path with
      | none => exact ⟨_, normIn_succ.2 (.inr ⟨by rintro _ ⟨⟩; exact htarget, .plain rfl⟩)⟩
      | some target =>
        obtain ⟨declared, hmem, hsize⟩ := mem_located_of_standsFor? htarget
        have hleft := Alias.left_cons (w := Ty.size) hmem (ht.not_visited hunder htarget)
        obtain ⟨v, hv⟩ := ih _ (under_target htarget hunder) (by
          simp only [Ty.size] at hn
          omega)
        exact ⟨v, normIn_succ.2 (.inl ⟨path, target, rfl, htarget, hv⟩)⟩
    | ref target m =>
      obtain ⟨v, hv⟩ := hpart target (Nat.le_refl _) fun _ h => h
      exact ⟨_, normIn_succ.2 (.inr ⟨nofun, .ref hv⟩)⟩
    | ptr target =>
      obtain ⟨v, hv⟩ := hpart target (Nat.le_refl _) fun _ h => h
      exact ⟨_, normIn_succ.2 (.inr ⟨nofun, .ptr hv⟩)⟩
    | array size elem =>
      obtain ⟨v, hv⟩ := hpart elem (Nat.le_refl _) fun _ h => h
      exact ⟨_, normIn_succ.2 (.inr ⟨nofun, .array hv⟩)⟩
    | tuple elems =>
      have hall : ∀ elem ∈ elems, ∃ v, t.normIn n elem = some v := fun elem helem =>
        hpart elem (Nat.succ_le_succ (Ty.size_le_of_mem helem)) fun _ => Ty.exposed_of_mem helem
      obtain ⟨vs, hvs⟩ := exists_forall₂_iff.2 hall
      exact ⟨_, normIn_succ.2 (.inr ⟨nofun, .tuple hvs⟩)⟩
    | _ => exact ⟨_, rfl⟩

/-- The reach of a type pays for its normal form. -/
theorem normIn_total (ht : t.Acyclic) (ty : Ty) : ∃ v, t.normIn (t.reach ty) ty = some v := by
  have htables : 1 ≤ t.tables.length := by
    obtain ⟨⟨transient, persistent, order, context⟩, stack⟩ := t
    exact Nat.succ_le_succ (Nat.zero_le _)
  refine normIn_of_left ht [] (fun _ h => absurd h List.not_mem_nil) ?_
  rw [Alias.left_nil, weigh_located]
  exact Nat.add_le_add_left (Nat.le_mul_of_pos_left _ htables) _

/-! ## What an alias stands for in the end -/

/-- Following aliases ends at a type that names none and has the same normal form. -/
theorem follow_norm (ht : t.Acyclic) {fuel : Nat} (hv : t.normIn n ty = some v)
    (hunder : ∀ key ∈ visited, t.Under key ty)
    (hfuel : Alias.left (fun _ => 1) visited t.located < fuel) :
    ∃ value, Alias.follow t.aliasStep? fuel visited ty = some value ∧
      t.aliasStep? value = none ∧ ∃ m ≤ n, t.normIn m value = some v := by
  induction n generalizing ty visited fuel with
  | zero => cases hv
  | succ n ih =>
    obtain ⟨fuel, rfl⟩ : ∃ k, fuel = k + 1 := ⟨fuel - 1, by omega⟩
    unfold Alias.follow
    rcases normIn_succ.1 hv with ⟨path, target, rfl, htarget, hn⟩ | ⟨hnone, hn⟩
    · have hnew := ht.not_visited hunder htarget
      obtain ⟨declared, hmem, -⟩ := mem_located_of_standsFor? htarget
      have hleft := Alias.left_cons (w := fun _ => 1) hmem hnew
      rw [aliasStep?_custom, htarget]
      dsimp only [Option.map_some]
      rw [if_neg (by simpa using hnew)]
      have hfuel' : Alias.left (fun _ => 1) (t.canonical path :: visited) t.located < fuel := by
        omega
      obtain ⟨value, hvalue, hend, m, hm, hnorm⟩ := ih hn (under_target htarget hunder) hfuel'
      exact ⟨value, hvalue, hend, m, by omega, hnorm⟩
    · have hstep : t.aliasStep? ty = none := by
        cases ty with
        | custom path => rw [aliasStep?_custom, hnone path rfl]; rfl
        | _ => rfl
      rw [hstep]
      exact ⟨ty, rfl, hstep, n + 1, Nat.le_refl _, hv⟩

/-- What an alias stands for in the end has the normal form of the alias, less deep. -/
theorem aliasValue?_norm (ht : t.Acyclic)
    (htarget : t.standsFor? path = some target) (hv : t.normIn n (.custom path) = some v) :
    ∃ value, t.aliasValue? (.custom path) = some value ∧
      ∃ m < n, t.normIn m value = some v := by
  have hnil : ∀ key ∈ ([] : List (List Ident)), t.Under key (.custom path) :=
    fun _ h => absurd h List.not_mem_nil
  have hcount : Alias.left (fun _ => 1) [] t.located = t.aliasTargets.length := by
    rw [Alias.left_nil, weigh_located, Alias.weigh_one]
  obtain ⟨declared, hmem, -⟩ := mem_located_of_standsFor? htarget
  have hleft := Alias.left_cons (w := fun _ => 1) hmem (ht.not_visited hnil htarget)
  obtain ⟨n, rfl⟩ := Nat.exists_eq_add_one.2 (pos_of_normIn hv)
  have hn : t.normIn n target = some v := by
    rwa [normIn, htarget] at hv
  have hfuel : Alias.left (fun _ => 1) [t.canonical path] t.located < t.aliasTargets.length := by
    omega
  obtain ⟨value, hvalue, -, m, hm, hnorm⟩ := follow_norm ht hn (under_target htarget hnil) hfuel
  refine ⟨value, ?_, m, by omega, hnorm⟩
  unfold aliasValue? Alias.follow
  rw [aliasStep?_custom, htarget]
  exact hvalue

end Symbols

end TreeSema
