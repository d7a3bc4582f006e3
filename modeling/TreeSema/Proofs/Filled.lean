import TreeSema.Proofs.TableRel
import TreeSema.Symbol.Listing

/-!
# Tables up to the values of variables

Analysis marks a variable when it gets a value, which decides about warnings and about the one
assignment that an immutable variable may have. `Symbols.filled` marks every variable of a table and
of its modules. Whatever else is asked of a table has the same answer for the table with all
variables marked, so that tables that differ in such marks only cannot be told apart.

* `Symbols.resolve_filled`: a path leads to the same entry, up to the mark.
* `Symbols.compatible_filled`, `Symbols.pointee_filled`, `Symbols.place?_filled`, …: what is asked
  of types and places.
* `Symbols.listing_filled`: the listing does not show the mark.
-/
namespace TreeSema

namespace ModuleBody

mutual

/-- A table with every variable marked as having a value, in its modules too. -/
def filled : ModuleBody → ModuleBody
  | .table ⟨⟨transient, persistent, order, context⟩, stack⟩ =>
    .table ⟨⟨filledEntries transient, filledEntries persistent, order, context⟩,
      filledScopes stack⟩

def filledKind : EntryKind ModuleBody → EntryKind ModuleBody
  | .moduleDef (some body) => .moduleDef (some (filled body))
  | .var v => .var { v with initialized := true }
  | kind => kind

def filledEntries : List SymbolEntry → List SymbolEntry
  | [] => []
  | ⟨name, static, kind, loc⟩ :: es => ⟨name, static, filledKind kind, loc⟩ :: filledEntries es

def filledScopes : List (Scope ModuleBody) → List (Scope ModuleBody)
  | [] => []
  | ⟨transient, persistent, order, context⟩ :: ss =>
    ⟨filledEntries transient, filledEntries persistent, order, context⟩ :: filledScopes ss

end

end ModuleBody

/-- An entry with every variable in it marked. -/
def Entry.filled (e : SymbolEntry) : SymbolEntry :=
  { e with kind := ModuleBody.filledKind e.kind }

/-- A scope with every variable in it marked. -/
def Scope.filled (s : Scope ModuleBody) : Scope ModuleBody :=
  { s with
    transient := s.transient.map Entry.filled
    persistent := s.persistent.map Entry.filled }

/-- A table with every variable marked as having a value, in its modules too. -/
def Symbols.filled (t : Symbols) : Symbols := ⟨t.root.filled, t.stack.map Scope.filled⟩

theorem ModuleBody.filledEntries_eq (es : List SymbolEntry) :
    filledEntries es = es.map Entry.filled := by
  induction es with
  | nil => rw [filledEntries, List.map_nil]
  | cons e es ih => rw [filledEntries, ih]; rfl

theorem ModuleBody.filledScopes_eq (ss : List (Scope ModuleBody)) :
    filledScopes ss = ss.map Scope.filled := by
  induction ss with
  | nil => rw [filledScopes, List.map_nil]
  | cons s ss ih => rw [filledScopes, ih, filledEntries_eq, filledEntries_eq]; rfl

theorem ModuleBody.filled_eq (b : ModuleBody) : b.filled = .table (Symbols.filled b.get) := by
  obtain ⟨⟨⟨transient, persistent, order, context⟩, stack⟩⟩ := b
  rw [filled, filledEntries_eq, filledEntries_eq, filledScopes_eq]
  rfl

theorem EnumBody.map_filled_entry? (d : EnumBody) (name : Ident) :
    (d.entry? name).map Entry.filled = d.entry? name := Option.map_map ..

theorem VariantBody.map_filled_entry? (d : VariantBody) (name : Ident) :
    (d.entry? name).map Entry.filled = d.entry? name := Option.map_map ..

theorem rel_of_map_eq {α β : Type} {f : α → β} {o o' : Option α} (h : o.map f = o'.map f) :
    Option.Rel (fun a a' => f a = f a') o o' := by
  cases o <;> cases o'
  · exact .none
  · cases h
  · cases h
  · exact .some (Option.some.inj h)

theorem rel_cases {α β : Type} {r : α → β → Prop} {o : Option α} {o'} (h : Option.Rel r o o') :
    (o = none ∧ o' = none) ∨ ∃ a b, o = some a ∧ o' = some b ∧ r a b := by
  cases h with
  | none => exact .inl ⟨rfl, rfl⟩
  | some hab => exact .inr ⟨_, _, rfl, rfl, hab⟩

namespace Symbols

variable (t : Symbols)

/-! ## Entries -/

theorem filled_rel : Table.Rel (fun e e' => e' = Entry.filled e) t t.filled := by
  have hentries : ∀ es : List SymbolEntry,
      List.Forall₂ (fun e e' => e' = e.filled) es (es.map Entry.filled) :=
    fun es => List.forall₂_map_right_iff.2 (List.forall₂_same.2 fun _ _ => rfl)
  have hscope : ∀ s : Scope ModuleBody, s.Rel (fun e e' => e' = Entry.filled e) s.filled :=
    fun s => ⟨hentries _, hentries _, rfl, rfl⟩
  exact ⟨hscope _, List.forall₂_map_right_iff.2 (List.forall₂_same.2 fun _ _ => hscope _)⟩

theorem filled_matching : Entry.Matching fun e e' => e' = Entry.filled e :=
  ⟨fun h => h ▸ rfl, fun h => h ▸ rfl⟩

theorem lookup_filled (name : Ident) :
    t.filled.lookup name = (t.lookup name).map Entry.filled := by
  have h := t.filled_rel.lookup filled_matching name
  generalize t.lookup name = e, t.filled.lookup name = e' at h ⊢
  cases h with
  | none => rfl
  | some he => rw [he]; rfl

theorem resolve_filled (path : List Ident) : ∀ t : Symbols,
    t.filled.resolve path = (t.resolve path).map Entry.filled := by
  unfold Symbols.resolve
  induction path with
  | nil => exact fun _ => rfl
  | cons name rest ih =>
    intro t
    unfold Table.resolveBy
    rw [lookup_filled]
    rcases t.lookup name with _ | ⟨name', static, kind, loc⟩
    · rfl
    · simp only [Option.map_some]
      split
      · rfl
      · cases kind with
        | moduleDef body =>
          cases body with
          | none => rfl
          | some body =>
            simp only [Entry.filled, ModuleBody.filledKind, ModuleBody.filled_eq]
            exact ih body.get
        | enumDef d =>
          simp only [Entry.filled, ModuleBody.filledKind]
          split
          · exact (d.map_filled_entry? _).symm
          · rfl
        | variantDef d =>
          simp only [Entry.filled, ModuleBody.filledKind]
          split
          · exact (d.map_filled_entry? _).symm
          · rfl
        | _ => exact ih t

theorem modulesOf_filled (path : List Ident) : ∀ t : Symbols,
    t.filled.modulesOf path = t.modulesOf path := by
  unfold Symbols.modulesOf
  induction path with
  | nil => exact fun _ => rfl
  | cons name rest ih =>
    intro t
    unfold Table.modulesBy
    rw [lookup_filled]
    rcases t.lookup name with _ | ⟨name', static, kind, loc⟩
    · rfl
    · simp only [Option.map_some]
      split
      · rfl
      · cases kind with
        | moduleDef body =>
          cases body with
          | none => rfl
          | some body =>
            simp only [Entry.filled, ModuleBody.filledKind, ModuleBody.filled_eq]
            exact congrArg _ (ih body.get)
        | enumDef _ | variantDef _ => rfl
        | _ => exact ih t

theorem leadingModules_filled (path : List Ident) : ∀ t : Symbols,
    t.filled.leadingModules path = t.leadingModules path := by
  unfold Symbols.leadingModules
  induction path with
  | nil => exact fun _ => rfl
  | cons name rest ih =>
    intro t
    unfold Table.leadingBy
    rw [lookup_filled]
    rcases t.lookup name with _ | ⟨name', static, kind, loc⟩
    · rfl
    · cases kind with
      | moduleDef body =>
        cases body with
        | none => rfl
        | some body =>
          simp only [Option.map_some, Entry.filled, ModuleBody.filledKind,
            ModuleBody.filled_eq]
          exact congrArg _ (ih body.get)
      | _ => rfl

@[simp] theorem canonical_filled (path : List Ident) : t.filled.canonical path = t.canonical path :=
  congrArg (· ++ path.getLast?.toList) (modulesOf_filled path t)

end Symbols

/-! ## Aliases -/

namespace ModuleBody

mutual

theorem tables_filled : ∀ b : ModuleBody, b.filled.tables = b.tables.map Symbols.filled
  | .table ⟨⟨transient, persistent, order, context⟩, stack⟩ => by
    have ht := tablesOfEntries_filled transient
    have hp := tablesOfEntries_filled persistent
    have hs := tablesOfScopes_filled stack
    have htable : Symbols.filled ⟨⟨transient, persistent, order, context⟩, stack⟩ =
        ⟨⟨filledEntries transient, filledEntries persistent, order, context⟩,
          filledScopes stack⟩ := by
      rw [filledEntries_eq, filledEntries_eq, filledScopes_eq]
      rfl
    rw [filled, tables, tables, List.map_cons, List.map_append, List.map_append, ht, hp, hs, htable]

theorem tablesOfEntries_filled : ∀ es : List SymbolEntry,
    tablesOfEntries (filledEntries es) = (tablesOfEntries es).map Symbols.filled
  | [] => by simp only [filledEntries, tablesOfEntries, List.map_nil]
  | ⟨name, static, kind, loc⟩ :: es => by
    have ih := tablesOfEntries_filled es
    cases kind with
    | moduleDef body =>
      cases body with
      | none => simpa only [filledEntries, filledKind, tablesOfEntries] using ih
      | some body =>
        have hbody := tables_filled body
        simp only [filledEntries, filledKind, tablesOfEntries, List.map_append, ih, hbody]
    | _ => simpa only [filledEntries, filledKind, tablesOfEntries] using ih

theorem tablesOfScopes_filled : ∀ ss : List (Scope ModuleBody),
    tablesOfScopes (filledScopes ss) = (tablesOfScopes ss).map Symbols.filled
  | [] => by simp only [filledScopes, tablesOfScopes, List.map_nil]
  | ⟨transient, persistent, order, context⟩ :: ss => by
    have ht := tablesOfEntries_filled transient
    have hp := tablesOfEntries_filled persistent
    have hs := tablesOfScopes_filled ss
    simp only [filledScopes, tablesOfScopes, List.map_append, ht, hp, hs]

end

end ModuleBody

namespace Symbols

variable (t : Symbols)

theorem tables_filled : t.filled.tables = t.tables.map Symbols.filled := by
  have h := ModuleBody.tables_filled (.table t)
  rwa [ModuleBody.filled_eq] at h

theorem ownTargets_filled : t.filled.ownTargets = t.ownTargets := by
  unfold Table.ownTargets
  rw [show t.filled.root :: t.filled.stack = (t.root :: t.stack).map Scope.filled from rfl,
    List.flatMap_map]
  refine List.flatMap_congr fun s _ => ?_
  rw [show s.filled.transient ++ s.filled.persistent
    = (s.transient ++ s.persistent).map Entry.filled from List.map_append.symm,
    List.filterMap_map]
  refine List.filterMap_congr fun e _ => ?_
  obtain ⟨name, static, kind, loc⟩ := e
  rcases kind with _ | _ | ⟨_ | _⟩ <;> rfl

theorem aliasTargets_filled : t.filled.aliasTargets = t.aliasTargets := by
  unfold aliasTargets
  rw [tables_filled, List.flatMap_map]
  exact List.flatMap_congr fun t _ => t.ownTargets_filled

theorem aliasStep?_filled : t.filled.aliasStep? = t.aliasStep? := by
  funext ty
  cases ty with
  | custom path =>
    have hresolve := resolve_filled path t
    have hcanonical := t.canonical_filled path
    have hleading := leadingModules_filled path.dropLast t
    unfold resolve canonical leadingModules at *
    simp only [aliasStep?, Table.aliasStepBy, hresolve, hcanonical, hleading]
    rcases t.resolveBy ModuleBody.get path with _ | ⟨name, static, kind, loc⟩
    · rfl
    · rcases kind with _ | _ | ⟨_ | _⟩ <;> rfl
  | _ => rfl

theorem aliasValue?_filled : t.filled.aliasValue? = t.aliasValue? := by
  funext ty
  rw [aliasValue?, aliasStep?_filled, aliasTargets_filled, aliasValue?]

@[simp] theorem underlying_filled (ty : Ty) : t.filled.underlying ty = t.underlying ty := by
  rw [underlying, aliasValue?_filled, underlying]

@[simp] theorem shown_filled (ty : Ty) : t.filled.shown ty = t.shown ty := by
  rw [shown, aliasValue?_filled, shown]

theorem aliasLoops_filled (ty : Ty) : t.filled.aliasLoops ty = t.aliasLoops ty := by
  rw [aliasLoops, aliasStep?_filled, aliasValue?_filled, aliasLoops]

/-! ## Types -/

theorem reach_filled (ty : Ty) : t.filled.reach ty = t.reach ty := by
  rw [reach, tables_filled, aliasTargets_filled, List.length_map, reach]

theorem compatibleIn_filled (fuel : Nat) :
    ∀ expected actual, t.filled.compatibleIn fuel expected actual
      = t.compatibleIn fuel expected actual := by
  induction fuel with
  | zero => exact fun _ _ => rfl
  | succ fuel ih =>
    intro expected actual
    unfold compatibleIn
    simp only [aliasValue?_filled, ih]

@[simp] theorem compatible_filled (expected actual : Ty) :
    t.filled.compatible expected actual = t.compatible expected actual := by
  rw [compatible, reach_filled, reach_filled, compatibleIn_filled, compatible]

theorem pointeeIn_filled (fuel : Nat) :
    ∀ ty, t.filled.pointeeIn fuel ty = t.pointeeIn fuel ty := by
  induction fuel with
  | zero => exact t.underlying_filled
  | succ fuel ih =>
    intro ty
    unfold pointeeIn
    simp only [underlying_filled, ih]

@[simp] theorem pointee_filled (ty : Ty) : t.filled.pointee ty = t.pointee ty := by
  rw [pointee, reach_filled, pointeeIn_filled, pointee]

@[simp] theorem qualifyAt_filled (path : List Ident) (ty : Ty) :
    t.filled.qualifyAt path ty = t.qualifyAt path ty := by
  rw [qualifyAt, modulesOf_filled, qualifyAt]

@[simp] theorem integerType_filled (ty : Ty) : t.filled.integerType ty = t.integerType ty := by
  rw [integerType, underlying_filled, integerType]

@[simp] theorem floatType_filled (ty : Ty) : t.filled.floatType ty = t.floatType ty := by
  rw [floatType, underlying_filled, floatType]

/-! ## Records and places -/

@[simp] theorem record?_filled (ty : Ty) : t.filled.record? ty = t.record? ty := by
  unfold record?
  rw [underlying_filled]
  split
  · rename_i path _
    rw [resolve_filled]
    rcases t.resolve path with _ | ⟨name, static, kind, loc⟩
    · rfl
    · rcases kind with _ | _ | ⟨_ | _⟩ <;> rfl
  · rfl

theorem throughIn_filled (fuel : Nat) : ∀ p, t.filled.throughIn fuel p = t.throughIn fuel p := by
  induction fuel with
  | zero => exact fun _ => rfl
  | succ fuel ih =>
    intro p
    unfold throughIn
    simp only [underlying_filled, ih]

@[simp] theorem through_filled (p : Place) : t.filled.through p = t.through p := by
  rw [through, reach_filled, throughIn_filled, through]

theorem variablePlace?_filled (name : Ident) :
    t.filled.variablePlace? name = t.variablePlace? name := by
  unfold variablePlace?
  rw [lookup_filled]
  rcases t.lookup name with _ | ⟨name', static, kind, loc⟩
  · rfl
  · rcases kind with _ | _ | ⟨_ | _⟩ <;> rfl

theorem place?_filled : ∀ n : Node, t.filled.place? n = t.place? n
  | .absent => rfl
  | .mk h [] fs b => by
    unfold place?
    rw [variablePlace?_filled]
  | .mk h (left :: cs) fs b => by
    have ih := place?_filled left
    unfold place?
    rcases cs with _ | ⟨_ | _, _⟩ <;>
      simp only [variablePlace?_filled, ih, through_filled, record?_filled, underlying_filled,
        qualifyAt_filled]

@[simp] theorem immutableRoot?_filled (n : Node) : t.filled.immutableRoot? n = t.immutableRoot? n := by
  rw [immutableRoot?, place?_filled, immutableRoot?]

@[simp] theorem startsAtValue_filled (n : Node) : t.filled.startsAtValue n = t.startsAtValue n := by
  unfold startsAtValue
  split
  · rename_i name _ _ _
    rw [lookup_filled]
    rcases t.lookup name with _ | ⟨name', static, kind, loc⟩
    · rfl
    · rcases kind with _ | _ | ⟨_ | _⟩ <;> rfl
  · rfl

@[simp] theorem context_filled : t.filled.context = t.context := by
  unfold Table.context Table.current filled
  cases t.stack <;> rfl

/-! ## Tables that differ in values only -/

variable {t} {t' : Symbols} {α β : Type}

/-- A question to which values make no difference has the same answer in both tables. -/
theorem same_of_filled {q : Symbols → β → α} (hq : ∀ t b, q t.filled b = q t b)
    (h : t.filled = t'.filled) (b : β) : q t b = q t' b := by
  rw [← hq t, h, hq]

theorem lookup_of_filled (h : t.filled = t'.filled) (name : Ident) :
    Option.Rel (fun e e' => e.filled = e'.filled) (t.lookup name) (t'.lookup name) := by
  have hmap : (t.lookup name).map Entry.filled = (t'.lookup name).map Entry.filled := by
    rw [← lookup_filled, h, lookup_filled]
  exact rel_of_map_eq hmap

theorem resolve_rel_of_filled (h : t.filled = t'.filled) (path : List Ident) :
    Option.Rel (fun e e' => e.filled = e'.filled) (t.resolve path) (t'.resolve path) := by
  have hmap : (t.resolve path).map Entry.filled = (t'.resolve path).map Entry.filled := by
    rw [← resolve_filled, h, resolve_filled]
  exact rel_of_map_eq hmap

end Symbols

/-! ## Listings -/

namespace ModuleBody

mutual

theorem lines_filled : ∀ b : ModuleBody, b.filled.lines = b.lines
  | .table ⟨⟨transient, persistent, order, context⟩, stack⟩ => by
    have ht := linesOfEntries_filled transient
    have hp := linesOfEntries_filled persistent
    rw [filled, lines, lines, ht, hp]

theorem linesOfEntries_filled : ∀ es : List SymbolEntry,
    linesOfEntries (filledEntries es) = linesOfEntries es
  | [] => by rw [filledEntries]
  | ⟨name, static, kind, loc⟩ :: es => by
    have ih := linesOfEntries_filled es
    cases kind with
    | moduleDef body =>
      cases body with
      | none => simp only [filledEntries, filledKind, linesOfEntries, ih]
      | some body =>
        have hbody := lines_filled body
        simp only [filledEntries, filledKind, linesOfEntries, ih, hbody, Entry.describe]
    | _ => simp only [filledEntries, filledKind, linesOfEntries, ih, Entry.describe]

end

end ModuleBody

/-- The listing of a table does not show which variables have a value. -/
theorem Symbols.listing_filled (t : Symbols) : t.filled.listing = t.listing := by
  have h := ModuleBody.lines_filled (.table t)
  rw [ModuleBody.filled_eq] at h
  exact congrArg (fun ls : List String => String.join (ls.map (· ++ "\n"))) h

end TreeSema
