import TreeSema.Proofs.Confined.Type

/-!
# Components of literals

The components of a literal are analysed one after the other, and a repeated one takes the place of
the earlier one. What is built names each field once, where it is given first, and has the value that
is given last: a field is found there as it is found among the components that were given.

* `components_returns`: what is made of components that are accepted.
* `components_merged`: how they are found again in what is built.
-/
namespace TreeSema.Analysis

variable {below : ExprRule}

variable (below) in
/-- At some point of a run, a value was accepted for a declared type of the definition at `path`, and
it was made into `value'`. -/
def Fills (path : List Ident) (type : Ty) (value value' : Node) : Prop :=
  ∃ s, (exprOf below (s.table.qualifyAt path type) value s).1 = (value', true)

variable (below) in
/-- A component with what was made of its value, as that of a declared field. -/
structure FillsField (fields : Fields) (path : List Ident) (f f' : Component Node) : Prop where
  name : f'.name = f.name
  value : ∃ type, fields.get? f.name = some type ∧ Fills below path type f.value f'.value

/-- The components that are built name declared fields. -/
theorem components_returns (fields : Fields) (path : List Ident) :
    ∀ done fs : List (Component Node), Returns (components below fields path done fs) fun _ r _ =>
      ∀ built, r.2 = some built → List.Forall₂ (FillsField below fields path) fs r.1 ∧
        built = r.1.foldl (fun built f => putComponent f built) done
  | done, [] => .pure fun _ => by rintro _ ⟨⟩; exact ⟨.nil, rfl⟩
  | done, f :: rest => by
    unfold components
    split
    · exact .report fun _ _ _ => nofun
    · rename_i type htype
      refine .symbols fun t => (Returns.run _).bind fun ⟨value, ok⟩ => ?_
      cases ok with
      | false => exact .pure fun _ _ _ _ _ => nofun
      | true =>
        refine (components_returns fields path _ rest).bind fun ⟨rest', built⟩ =>
          .pure fun s₂ s₁ hrest s hv ht built' hbuilt => ?_
        obtain ⟨hfills, rfl⟩ := hrest built' hbuilt
        subst ht
        exact ⟨.cons ⟨rfl, type, htype, s, by rw [hv]⟩ hfills, rfl⟩

/-- Components that are accepted: each of them is one of a declared field, with what was made of its
value. What is built of them has each name once, in the order in which the names are given first, and
under each name the last component that was given. So looking up a name in a literal with these
components finds what it finds in a literal with all that were given. -/
theorem components_merged {fields : Fields} {owner : List Ident}
    {given given' built : List (Component Node)} {s s' : State}
    (h : components below fields owner [] given s = ((given', some built), s')) :
    List.Forall₂ (FillsField below fields owner) given given' ∧
      built.map (·.name) = (given.map (·.name)).eraseDups ∧
      (∀ f ∈ built, (fields.get? f.name).isSome ∧
        given'.reverse.find? (·.name == f.name) = some f) ∧
      ∀ (head : Head) (name : Ident),
        (Node.ofFields head built).field? name = (Node.ofFields head given').field? name := by
  have hreturns := components_returns fields owner [] given s built (by rw [h])
  rw [h, foldl_putComponent] at hreturns
  obtain ⟨hfills : List.Forall₂ (FillsField below fields owner) given given',
    rfl : built = Keyed.puts (·.name) given'⟩ := hreturns
  have hnames : given'.map (·.name) = given.map (·.name) := by
    clear h
    induction hfills with
    | nil => rfl
    | cons hf _ ih => exact congrArg₂ (· :: ·) hf.name ih
  have hnodup := Keyed.nodup_puts (fun f : Component Node => f.name) given'
  refine ⟨hfills, hnames ▸ Keyed.keys_puts given', fun f hf => ?_, fun head name => ?_⟩
  · have hlast : given'.reverse.find? (·.name == f.name) = some f := by
      rw [← Keyed.find?_puts, Keyed.find?_eq_some_iff hnodup]
      exact ⟨hf, rfl⟩
    have hmem : f ∈ given' := List.mem_reverse.1 (List.mem_of_find?_eq_some hlast)
    obtain ⟨g, -, hg⟩ := exists_of_forall₂_right hfills hmem
    obtain ⟨type, htype, -⟩ := hg.value
    exact ⟨by rw [hg.name, htype]; rfl, hlast⟩
  · exact (Keyed.find?_reverse hnodup name).trans (Keyed.find?_puts given' name)

/-- The field `x` is given twice: it stands first, with its second value. -/
theorem components_merged_repeated :
    let value : Int → Node := fun i => .leaf { kind := .int, loc := {}, integer := i }
    let field : String → Int → Component Node := fun x i => ⟨.name x, .unknown, value i, {}⟩
    let given := [field "x" 1, field "y" 2, field "x" 3]
    let fields : Fields := .ofList [(.name "y", .basic .i32), (.name "x", .basic .i32)]
    components (exprAt {} 1) fields [.name "S"] [] given {} =
        ((given, some [field "x" 3, field "y" 2]), {}) ∧
      [field "x" 3, field "y" 2].map (·.name) = (given.map (·.name)).eraseDups ∧
      ∀ head name, (Node.ofFields head [field "x" 3, field "y" 2]).field? name =
        (Node.ofFields head given).field? name := by
  intro value field given fields
  have haccepts : components (exprAt {} 1) fields [.name "S"] [] given {} =
      ((given, some [field "x" 3, field "y" 2]), {}) := rfl
  obtain ⟨-, hnames, -, hfields⟩ := components_merged haccepts
  exact ⟨haccepts, hnames, hfields⟩

end TreeSema.Analysis
