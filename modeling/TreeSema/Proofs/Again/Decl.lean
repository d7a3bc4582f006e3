import TreeSema.Proofs.Accept.Stmt
import TreeSema.Proofs.Again.Follow

/-!
# Declarations that are made again

Declarations without errors are the same when they are made from a state that trails.

* `record_follows`, `enum_follows`, `variant_follows`, `aliasDecl_follows`: types.
* `declareFunction_follows`, `bindFormals_follows`: functions.
* `settleDeclared_follows`: the types that a body declares.
* `Declares.follows`: statements that declare something or jump.
-/
namespace TreeSema.Analysis

theorem Follows.modifyDeclared (g : List (Ty × Location) → List (Ty × Location)) :
    Follows (modify fun s => { s with declared := g s.declared } : Analysis Unit)
      (modify fun s => { s with declared := g s.declared }) where
  growing s := (State.Grows.refl s).append [] (List.append_nil _).symm rfl
  again hu _ := ⟨_, rfl, hu.table, hu.returns, congrArg g hu.declared,
    ⟨hu.clean.findings, hu.clean.depthReported⟩⟩

theorem redefined_follows (name : Ident) (loc : Location) :
    Follows (redefined name loc) (redefined name loc) := by
  refine .symbols fun {t t'} ht => ?_
  split
  · rename_i hnone
    rw [ht.lookup_eq_none (Option.isNone_iff_eq_none.1 hnone)]
    exact .pure false
  · exact .rejects loc rfl true

theorem declare_follows (type : Ty) (loc : Location) :
    Follows (declare type loc) (declare type loc) := .modifyDeclared (· ++ [(type, loc)])

theorem insert_follows (e : SymbolEntry) : Follows (insert e) (insert e) := .insert (.refl e)

/-! ## Types -/

theorem collectFields_follows : ∀ (fields : Fields) (fs : List FieldDecl),
    Follows (collectFields fields fs) (collectFields fields fs)
  | fields, [] => .pure fields
  | fields, f :: rest => by
    unfold collectFields
    split
    · exact .reports (collectFields_follows fields rest).growing _ rfl
    · exact (declare_follows _ _).bind fun _ => collectFields_follows _ rest

theorem record_follows (h : Head) (fs : List (Component Node)) :
    Follows (record h fs) (record h fs) := by
  refine (redefined_follows _ _).bind fun taken => ?_
  split
  · exact .pure ()
  · exact (collectFields_follows _ _).bind fun _ => insert_follows _

theorem enumValues_follows (owner : Ident) : ∀ (next : Int) (d : EnumBody) (vs : List EnumItem),
    Follows (enumValues owner next d vs) (enumValues owner next d vs)
  | _, d, [] => .pure d
  | next, d, v :: rest => by
    unfold enumValues
    dsimp only
    generalize (if v.explicit = true then v.value else next) = value
    split
    · exact .reports (enumValues_follows owner _ d rest).growing _ rfl
    · split
      · exact .reports (enumValues_follows owner _ d rest).growing _ rfl
      · exact enumValues_follows owner _ _ rest

theorem enum_follows (h : Head) : Follows (enum h) (enum h) := by
  refine (redefined_follows _ _).bind fun taken => ?_
  split
  · exact .pure ()
  · exact (enumValues_follows _ _ _ _).bind fun _ => insert_follows _

theorem declareTypes_follows (loc : Location) (types : List Ty) :
    Follows (declareTypes loc types) (declareTypes loc types) := by
  induction types with
  | nil => exact .pure ()
  | cons type rest ih => exact (declare_follows _ _).bind fun _ => ih

theorem armPayload_follows (arm : Arm) : Follows (armPayload arm) (armPayload arm) := by
  unfold armPayload
  split
  · exact (declareTypes_follows _ _).bind fun _ => .pure _
  · exact (collectFields_follows _ _).bind fun _ => .pure _
  · exact .pure _

theorem variantArms_follows (owner : Ident) : ∀ (d : VariantBody) (arms : List Arm),
    Follows (variantArms owner d arms) (variantArms owner d arms)
  | d, [] => .pure (d, [])
  | d, arm :: rest => by
    unfold variantArms
    split
    · exact .reports (variantArms_follows owner d rest).growing _ rfl
    · refine (armPayload_follows arm).bind fun payload => ?_
      exact (variantArms_follows owner _ rest).bind fun _ => .pure _

theorem insertFree_follows : ∀ es : List SymbolEntry, Follows (insertFree es) (insertFree es)
  | [] => .pure ()
  | e :: rest => by
    refine (redefined_follows _ _).bind fun taken => ?_
    split
    · exact insertFree_follows rest
    · exact (insert_follows e).bind fun _ => insertFree_follows rest

theorem variant_follows (h : Head) : Follows (variant h) (variant h) := by
  refine (redefined_follows _ _).bind fun taken => ?_
  split
  · exact .pure ()
  · exact (variantArms_follows _ _ _).bind fun _ => (insert_follows _).bind fun _ =>
      insertFree_follows _

theorem aliasDecl_follows (h : Head) : Follows (aliasDecl h) (aliasDecl h) := by
  refine (redefined_follows _ _).bind fun taken => ?_
  split
  · exact .pure ()
  · refine (insert_follows _).bind fun _ => (declare_follows _ _).bind fun _ => ?_
    refine .symbols fun {t t'} ht => ?_
    rw [ht.same Symbols.aliasLoops_filled]
    split
    · exact .rejects _ rfl ()
    · exact .pure ()

/-- The types declared since are found again. -/
theorem settleDeclared_follows (mark : Nat) :
    Follows (settleDeclared mark) (settleDeclared mark) := by
  have hall : ∀ ds : List (Ty × Location), Follows (checkAll ds) (checkAll ds) := by
    intro ds
    induction ds with
    | nil => exact .pure ()
    | cons d rest ih => exact (Follows.respected.checkType _ _).bind fun _ => ih
  refine .declared (f := fun ds => do
    checkAll (ds.drop mark)
    modify fun s => { s with declared := s.declared.take mark }) fun ds => ?_
  exact (hall _).bind fun _ => .modifyDeclared (·.take mark)

/-! ## Functions and variables -/

theorem formals_follows : ∀ (done : List Formal) (ps : List Param),
    Follows (formals done ps) (formals done ps)
  | done, [] => .pure done
  | done, p :: rest => by
    unfold formals
    split
    · exact .reports (formals_follows done rest).growing _ rfl
    · exact (Follows.respected.checkType _ _).bind fun _ => formals_follows _ rest

theorem declareFunction_follows (h : Head) (flags : Attributes) :
    Follows (declareFunction h flags) (declareFunction h flags) :=
  (Follows.respected.checkType _ _).bind fun _ => (formals_follows _ _).bind fun _ =>
    (insert_follows _).bind fun _ => .pure _

theorem bindFormals_follows : ∀ ps : List (Formal × Location),
    Follows (bindFormals ps) (bindFormals ps)
  | [] => .pure ()
  | _ :: rest => (insert_follows _).bind fun _ => bindFormals_follows rest

theorem foreignFunction_follows (h : Head) (b : Node) :
    Follows (function h .foreignFn b pure) (function h .foreignFn b pure) := by
  refine (redefined_follows _ _).bind fun taken => ?_
  split
  · exact .pure b
  · refine (declareFunction_follows _ _).bind fun params => ?_
    split
    · exact .pure b
    · rw [if_pos (functionFlags_foreign h)]
      exact .rejects _ rfl b

theorem foreignVariable_follows (h : Head) (cs : List Node) :
    Follows (foreignVariable h cs) (foreignVariable h cs) := by
  have hbind : Follows (bindForeign h) (bindForeign h) := by
    unfold bindForeign
    split
    · exact .rejects _ rfl ()
    · exact (Follows.respected.checkType _ _).bind fun _ => insert_follows _
  refine (redefined_follows _ _).bind fun taken => ?_
  split
  · exact .pure ()
  · dsimp only
    split
    · exact hbind
    · exact .reports hbind.growing _ rfl

theorem externItems_follows : ∀ items : List Node, Follows (externItems items) (externItems items)
  | [] => .pure ()
  | n :: rest => by
    have hrest := externItems_follows rest
    unfold externItems
    split
    · exact .reports hrest.growing _ rfl
    · split
      · exact (foreignFunction_follows _ _).bind fun _ => hrest
      · exact (foreignVariable_follows _ _).bind fun _ => hrest
      · exact (foreignVariable_follows _ _).bind fun _ => hrest
      · exact .reports hrest.growing _ rfl

theorem jump_follows (h : Head) : Follows (jump h) (jump h) := by
  refine .symbols fun {t t'} ht => ?_
  rw [ht.context]
  split
  · exact .pure ()
  · exact .rejects _ rfl ()

/-- A statement that only declares something or jumps does so again. -/
theorem Declares.follows {h cs fs step} (hstep : Declares h cs fs step) : Follows step step := by
  cases hstep with
  | record => exact record_follows h fs
  | enum => exact enum_follows h
  | variant => exact variant_follows h
  | foreign => exact externItems_follows cs
  | aliasType => exact aliasDecl_follows h
  | jump => exact jump_follows h

end TreeSema.Analysis
