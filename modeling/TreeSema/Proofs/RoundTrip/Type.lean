import TreeSema.Proofs.RoundTrip.Datum
import TreeSema.Proofs.Shape
import TreeSema.Tree.Printer

/-!
# Names and types are read as they were written

A name is one symbol without a doubled colon and is not `_`. A path is written with doubled colons
between its segments, so it can be cut again only if its segments hold no colon themselves.

* `IsName.path`: names make a path.
* `readType_of_readable`: a readable type is read as it was written.
-/
namespace TreeSema

open Text (Pos fits64 int64?)

/-! ## Segments -/

variable {s text : String} {path : List String} {ds ds' : List Datum} {d : Datum} {b : Basic}

theorem splitSegments_ne_nil (cs : List Char) : splitSegments cs ≠ [] := by
  fun_cases splitSegments cs <;> simp_all

theorem splitSegments_cons {c : Char} (hc : c ≠ ':') (cs : List Char) :
    ∃ s ss, splitSegments cs = s :: ss ∧ splitSegments (c :: cs) = (c :: s) :: ss := by
  obtain ⟨s, ss, hs⟩ := List.exists_cons_of_ne_nil (splitSegments_ne_nil cs)
  refine ⟨s, ss, hs, ?_⟩
  rw [splitSegments]
  · rw [hs]
  · rintro _ rfl
    exact absurd rfl hc

theorem splitSegments_of_not_mem {s : List Char} (h : ':' ∉ s) : splitSegments s = [s] := by
  induction s with
  | nil => rfl
  | cons c s ih =>
    simp only [List.mem_cons, not_or] at h
    obtain ⟨s', ss, hs, hcons⟩ := splitSegments_cons (Ne.symm h.1) s
    rw [ih h.2] at hs
    cases hs
    exact hcons

theorem splitSegments_append {s : List Char} (h : ':' ∉ s) (cs : List Char) :
    splitSegments (s ++ ':' :: ':' :: cs) = s :: splitSegments cs := by
  induction s with
  | nil => simp [splitSegments]
  | cons c s ih =>
    simp only [List.mem_cons, not_or] at h
    obtain ⟨s', ss, hs, hcons⟩ := splitSegments_cons (Ne.symm h.1) (s ++ ':' :: ':' :: cs)
    rw [ih h.2] at hs
    cases hs
    exact hcons

/-- A path is cut into the segments it was joined from. -/
theorem segments_intercalate (hne : path ≠ [])
    (h : ∀ s ∈ path, ':' ∉ s.toList) : segments ("::".intercalate path) = path := by
  have hsplit : ∀ path : List String, path ≠ [] → (∀ s ∈ path, ':' ∉ s.toList) →
      splitSegments ([':', ':'].intercalate (path.map String.toList)) = path.map String.toList := by
    intro path hne h
    induction path with
    | nil => exact absurd rfl hne
    | cons s path ih =>
      obtain ⟨hs, hpath⟩ := List.forall_mem_cons.1 h
      cases path with
      | nil => simpa using splitSegments_of_not_mem hs
      | cons s' path =>
        have ih := ih (by simp) hpath
        simp only [List.map_cons, List.intercalate_cons_cons] at ih ⊢
        rw [List.append_assoc, List.cons_append, List.cons_append, List.nil_append,
          splitSegments_append hs, ih]
  rw [segments, String.toList_intercalate, show "::".toList = [':', ':'] by decide,
    hsplit path hne h, List.map_map]
  simp [Function.comp_def]

/-- In a symbol colons stand in pairs. -/
theorem splitSegments_length_of_mem {cs : List Char} (h : symbolRest cs = cs) (hc : ':' ∈ cs) :
    1 < (splitSegments cs).length := by
  fun_induction symbolRest cs with
  | case1 cs ih =>
    have := List.length_pos_iff.2 (splitSegments_ne_nil cs)
    simp only [splitSegments, List.length_cons]
    omega
  | case2 c cs hne hcont ih =>
    have hcolon : c ≠ ':' := by
      rintro rfl
      exact absurd hcont (by decide)
    simp only [List.cons.injEq, true_and] at h
    simp only [List.mem_cons, Ne.symm hcolon, false_or] at hc
    obtain ⟨s, ss, hs, hcons⟩ := splitSegments_cons hcolon cs
    have := ih h hc
    rw [hs] at this
    rwa [hcons]
  | case3 => cases h
  | case4 => cases hc

/-! ## Names and paths -/

/-- The text is one symbol and holds no doubled colon. -/
structure IsSegment (s : String) : Prop where
  symbol : IsSymbol s
  single : segments s = [s]

/-- A name that can be declared and called. -/
structure IsName (s : String) : Prop extends IsSegment s where
  named : s ≠ "_"

theorem colon_not_mem_of_length (hs : IsSymbol s) (h : ¬ 1 < (segments s).length) :
    ':' ∉ s.toList := by
  obtain ⟨c, cs, htext, hstart, -, hrest⟩ := isSymbol_iff.1 hs
  have hc : c ≠ ':' := by
    rintro rfl
    exact absurd hstart (by decide)
  intro hmem
  rw [htext] at hmem
  simp only [List.mem_cons, Ne.symm hc, false_or] at hmem
  have hlen := splitSegments_length_of_mem hrest hmem
  obtain ⟨s', ss, hs, hcons⟩ := splitSegments_cons hc cs
  rw [segments, htext, hcons, List.length_map, List.length_cons] at h
  rw [hs, List.length_cons] at hlen
  exact h hlen

theorem IsSegment.colon_not_mem (h : IsSegment s) : ':' ∉ s.toList :=
  colon_not_mem_of_length h.symbol (by simp [h.single])

/-- A symbol that is not cut anywhere is a segment. -/
theorem isSegment_of_length (hs : IsSymbol s) (h : ¬ 1 < (segments s).length) : IsSegment s := by
  refine ⟨hs, ?_⟩
  rw [segments, splitSegments_of_not_mem (colon_not_mem_of_length hs h)]
  simp

/-- A path that can be written and is cut into the same segments again. -/
structure IsPath (path : List String) : Prop where
  symbol : IsSymbol ("::".intercalate path)
  colon_not_mem : ∀ s ∈ path, ':' ∉ s.toList

theorem IsPath.ne_nil (h : IsPath path) : path ≠ [] := by
  rintro rfl
  exact absurd h.symbol (by decide)

theorem IsPath.segments (h : IsPath path) : segments ("::".intercalate path) = path :=
  segments_intercalate h.ne_nil h.colon_not_mem

theorem IsSymbol.symbolRest_self (h : IsSymbol s) : symbolRest s.toList = s.toList := by
  obtain ⟨c, cs, htext, hstart, -, hrest⟩ := isSymbol_iff.1 h
  have hone : symbolRest [c] = [c] := by
    have hcont : continuesSymbol c = true := by simp [continuesSymbol, hstart]
    simp [symbolRest, hcont]
  rw [htext, ← List.singleton_append, symbolRest_append hone, hrest]

/-- A path goes on behind a segment. -/
theorem IsPath.cons (hs : IsSegment s) (h : IsPath path) : IsPath (s :: path) := by
  refine ⟨?_, List.forall_mem_cons.2 ⟨hs.colon_not_mem, h.colon_not_mem⟩⟩
  cases path with
  | nil => exact absurd rfl h.ne_nil
  | cons s' path =>
    obtain ⟨c, cs, htext, hstart, hnum, hcs⟩ := isSymbol_iff.1 hs.symbol
    refine isSymbol_iff.2 ⟨c, cs ++ ':' :: ':' :: ("::".intercalate (s' :: path)).toList, ?_,
      hstart, ?_, ?_⟩
    · simp [String.toList_intercalate, htext]
    · rw [startsNumber_append (by simp; decide), hnum]
    · rw [symbolRest_append hcs, symbolRest, h.symbol.symbolRest_self]

/-- Segments make a path. -/
theorem isPath_of_segments (hne : path ≠ []) (h : ∀ s ∈ path, IsSegment s) : IsPath path := by
  induction path with
  | nil => exact absurd rfl hne
  | cons s path ih =>
    obtain ⟨hs, hpath⟩ := List.forall_mem_cons.1 h
    cases path with
    | nil => exact ⟨by simpa using hs.symbol, by simpa using hs.colon_not_mem⟩
    | cons s' path => exact .cons hs (ih (by simp) hpath)

/-! ## Readable types -/

/-- The type can be written and is read as it was written. -/
inductive Ty.Readable : Ty → Prop
  | unknown : Readable .unknown
  | basic {b : Basic} (named : ∀ code, b ≠ .other code) : Readable (.basic b)
  | unit : Readable .unit
  | ref {t} (m : Bool) (target : Readable t) : Readable (.ref t m)
  | ptr {t} (target : Readable t) : Readable (.ptr t)
  | tuple {ts} (nonempty : ts ≠ []) (known : ∀ t ∈ ts, t ≠ .unknown)
      (elems : ∀ t ∈ ts, Readable t) : Readable (.tuple ts)
  | array {n t} (size : 0 ≤ n) (fits : fits64 n = true) (elem : Readable t) :
      Readable (.array n t)
  | template {name ts} (isName : IsName name)
      (known : ∀ t ∈ ts, t ≠ .unknown) (args : ∀ t ∈ ts, Readable t) :
      Readable (.template (.name name) ts)
  | custom {path : List String} (isPath : IsPath path) (segments : ∀ s ∈ path, s ≠ "")
      (free : ∀ s, path = [s] → s ≠ "_" ∧ Basic.ofName? s = none) :
      Readable (.custom (path.map .name))

namespace Datum

variable {d : Datum}

theorem unplaced_eq_symbol (h : d.unplaced = (symbol text).unplaced) :
    ∃ p, d = .atom p [] .symbol text := by
  cases d with
  | atom p notes sort text' =>
    cases sort <;> simp_all [symbol, unplaced]
  | _ => simp [symbol, unplaced] at h

theorem unplaced_eq_integer (h : d.unplaced = (integer text).unplaced) :
    ∃ p, d = .atom p [] .integer text := by
  cases d with
  | atom p notes sort text' =>
    cases sort <;> simp_all [integer, unplaced]
  | _ => simp [integer, unplaced] at h

theorem unplaced_eq_str (h : d.unplaced = (str text).unplaced) :
    ∃ p, d = .atom p [] .string text := by
  cases d with
  | atom p notes sort text' =>
    cases sort <;> simp_all [str, unplaced]
  | _ => simp [str, unplaced] at h

theorem unplaced_eq_list {p} {notes : List (String × Datum)}
    (h : d.unplaced = (Datum.list p notes ds).unplaced) :
    ∃ q notes' ds', d = .list q notes' ds' ∧
      notes'.map (fun e => (e.1, e.2.unplaced)) = notes.map (fun e => (e.1, e.2.unplaced)) ∧
      ds'.map unplaced = ds.map unplaced := by
  cases d with
  | list q notes' ds' => simp_all [unplaced]
  | atom _ _ sort => cases sort <;> simp [unplaced] at h
  | _ => simp [unplaced] at h

theorem unplaced_eq_ofItems (h : d.unplaced = (ofItems ds).unplaced) :
    ∃ p ds', d = .list p [] ds' ∧ ds'.map unplaced = ds.map unplaced := by
  obtain ⟨p, notes, ds', rfl, hnotes, hds⟩ := unplaced_eq_list h
  simp only [List.map_nil, List.map_eq_nil_iff] at hnotes
  exact ⟨p, ds', by rw [hnotes], hds⟩

theorem unplaced_eq_ofEntries {es : List (String × Datum)}
    (h : d.unplaced = (ofEntries es).unplaced) :
    ∃ p es', d = .map p [] es' ∧
      es'.map (fun e => (e.1, e.2.unplaced)) = es.map fun e => (e.1, e.2.unplaced) := by
  cases d with
  | map p notes es' => simp_all [ofEntries, unplaced]
  | atom _ _ sort => cases sort <;> simp [ofEntries, unplaced] at h
  | _ => simp [ofEntries, unplaced] at h

theorem unplaced_eq_cons (h : ds'.map unplaced = (d :: ds).map unplaced) :
    ∃ e es, ds' = e :: es ∧ e.unplaced = d.unplaced ∧ es.map unplaced = ds.map unplaced := by
  obtain ⟨e, es, rfl, he, hes⟩ := List.map_eq_cons_iff.1 h
  exact ⟨e, es, rfl, he, hes⟩

theorem unplaced_eq_one (h : ds'.map unplaced = [d].map unplaced) :
    ∃ e, ds' = [e] ∧ e.unplaced = d.unplaced := by
  obtain ⟨e, es, rfl, he, hes⟩ := unplaced_eq_cons h
  exact ⟨e, by rw [List.map_eq_nil_iff.1 hes], he⟩

theorem unplaced_eq_two {d₁ d₂ : Datum} (h : ds'.map unplaced = [d₁, d₂].map unplaced) :
    ∃ e₁ e₂, ds' = [e₁, e₂] ∧ e₁.unplaced = d₁.unplaced ∧ e₂.unplaced = d₂.unplaced := by
  obtain ⟨e₁, es, rfl, he₁, hes⟩ := unplaced_eq_cons h
  obtain ⟨e₂, rfl, he₂⟩ := unplaced_eq_one hes
  exact ⟨e₁, e₂, rfl, he₁, he₂⟩

/-- A list that starts with a word. -/
theorem unplaced_eq_form {word : String} (h : d.unplaced = (ofItems (symbol word :: ds)).unplaced) :
    ∃ p q ds', d = .list p [] (.atom q [] .symbol word :: ds') ∧
      ds'.map unplaced = ds.map unplaced := by
  obtain ⟨p, ds', rfl, hds⟩ := unplaced_eq_ofItems h
  obtain ⟨e, es, rfl, he, hes⟩ := unplaced_eq_cons hds
  obtain ⟨q, rfl⟩ := unplaced_eq_symbol he
  exact ⟨p, q, es, rfl, hes⟩

end Datum

namespace Ty

@[simp] theorem toData_eq_map (ts : List Ty) : toData ts = ts.map toDatum := by
  induction ts with
  | nil => rfl
  | cons t ts ih => rw [toData, ih, List.map_cons]

end Ty

namespace TreeReader

variable {unit : String}

theorem readName_of_isName (h : IsName s)
    (hd : d.unplaced = (Datum.symbol s).unplaced) : readName unit d = .ok (.name s) := by
  obtain ⟨p, rfl⟩ := Datum.unplaced_eq_symbol hd
  simp [readName, h.single, h.named]

theorem ofName?_toString (h : ∀ code, b ≠ .other code) :
    Basic.ofName? b.toString = some b ∧ b.toString ≠ "_" ∧ IsSymbol b.toString := by
  cases b with
  | other code => exact absurd rfl (h code)
  | _ => decide

theorem toString_of_ofName? (h : Basic.ofName? s = some b) :
    b.toString = s ∧ ∀ code, b ≠ .other code := by
  have hnamed : ∀ e ∈ Basic.named, e.2.toString = e.1 ∧ ∀ code, e.2 ≠ .other code := by
    simp [Basic.named, Basic.toString]
  obtain ⟨before, after, hlist, -⟩ := List.lookup_eq_some_iff.1 h
  exact hnamed (s, b) (by simp [hlist])

theorem colon_not_mem_of_ofName? (h : Basic.ofName? s = some b) : ':' ∉ s.toList := by
  have hnames : ∀ e ∈ Basic.named, ':' ∉ e.1.toList := by decide
  obtain ⟨before, after, hnamed, -⟩ := List.lookup_eq_some_iff.1 h
  exact hnames (s, b) (by simp [hnamed])

/-- A path of several segments is no name. -/
theorem colon_mem_intercalate {s' : String} :
    ':' ∈ ("::".intercalate (s :: s' :: path)).toList := by
  simp [String.toList_intercalate]

theorem readTypeName_of_path {p} (h : IsPath path) (hsegments : ∀ s ∈ path, s ≠ "")
    (hfree : ∀ s, path = [s] → s ≠ "_" ∧ Basic.ofName? s = none) :
    readTypeName unit p ("::".intercalate path) = .ok (.custom (path.map .name)) := by
  have hplain : "::".intercalate path ≠ "_" ∧ Basic.ofName? ("::".intercalate path) = none := by
    match path with
    | [] => exact absurd rfl h.ne_nil
    | [s] => simpa using hfree s rfl
    | s :: s' :: path =>
      have hcolon : ':' ∈ ("::".intercalate (s :: s' :: path)).toList := colon_mem_intercalate
      constructor
      · intro heq
        rw [heq] at hcolon
        exact absurd hcolon (by decide)
      · cases hname : Basic.ofName? ("::".intercalate (s :: s' :: path)) with
        | none => rfl
        | some b => exact absurd hcolon (colon_not_mem_of_ofName? hname)
  rw [readTypeName, if_neg hplain.1, hplain.2]
  dsimp only
  rw [h.segments, if_neg (by simpa using fun hmem => hsegments "" hmem rfl)]

theorem joinPath_names (path : List String) :
    Ident.joinPath (path.map .name) = "::".intercalate path := by
  simp [Ident.joinPath, Function.comp_def, Ident.text]

theorem readTypes_of_readable {ts : List Ty} (hknown : ∀ t ∈ ts, t ≠ .unknown)
    (ih : ∀ t ∈ ts, ∀ {d : Datum}, d.unplaced = t.toDatum.unplaced → readType unit d = .ok t)
    (hds : ds.map Datum.unplaced = (ts.map Ty.toDatum).map Datum.unplaced) :
    readTypes unit ds = .ok ts := by
  induction ts generalizing ds with
  | nil => simp_all [readTypes]
  | cons t ts iht =>
    obtain ⟨e, es, rfl, he, hes⟩ := Datum.unplaced_eq_cons hds
    obtain ⟨ht, hts⟩ := List.forall_mem_cons.1 hknown
    obtain ⟨hread, hreads⟩ := List.forall_mem_cons.1 ih
    have hrest := iht hts hreads hes
    have hunknown : t.isUnknown = false := by cases t <;> simp_all [Ty.isUnknown]
    simp only [readTypes, hread he, hrest, bind, Except.bind, hunknown]
    rfl

/-- A readable type is read as it was written. -/
theorem readType_of_readable {t : Ty} (h : t.Readable)
    (hd : d.unplaced = t.toDatum.unplaced) : readType unit d = .ok t := by
  induction h generalizing d with
  | unknown =>
    obtain ⟨p, rfl⟩ := Datum.unplaced_eq_symbol hd
    simp [readType, readTypeName]
  | basic named =>
    obtain ⟨p, rfl⟩ := Datum.unplaced_eq_symbol hd
    obtain ⟨hname, hunknown, -⟩ := ofName?_toString named
    simp [readType, readTypeName, hname, hunknown]
  | unit =>
    obtain ⟨p, ds, rfl, hds⟩ := Datum.unplaced_eq_ofItems hd
    simp_all [readType]
  | ref m target ih =>
    cases m with
    | true =>
      obtain ⟨p, q, ds, rfl, hds⟩ := Datum.unplaced_eq_form hd
      obtain ⟨e, e', rfl, he, he'⟩ := Datum.unplaced_eq_two hds
      obtain ⟨q', rfl⟩ := Datum.unplaced_eq_symbol he
      simp only [readType, Datum.isSymbol, ih he', beq_self_eq_true, if_true]
      rfl
    | false =>
      obtain ⟨p, q, ds, rfl, hds⟩ := Datum.unplaced_eq_form hd
      obtain ⟨e, rfl, he⟩ := Datum.unplaced_eq_one hds
      simp only [readType, ih he]
      rfl
  | ptr target ih =>
    obtain ⟨p, q, ds, rfl, hds⟩ := Datum.unplaced_eq_form hd
    obtain ⟨e, rfl, he⟩ := Datum.unplaced_eq_one hds
    simp only [readType, ih he]
    rfl
  | tuple nonempty known elems ih =>
    obtain ⟨p, q, ds, rfl, hds⟩ := Datum.unplaced_eq_form hd
    rw [Ty.toData_eq_map] at hds
    have hread := readTypes_of_readable known (fun t ht => ih t ht) hds
    obtain ⟨t, ts, rfl⟩ := List.exists_cons_of_ne_nil nonempty
    simp only [readType, hread]
    rfl
  | array size fits elem ih =>
    obtain ⟨p, q, ds, rfl, hds⟩ := Datum.unplaced_eq_form hd
    obtain ⟨e, e', rfl, he, he'⟩ := Datum.unplaced_eq_two hds
    obtain ⟨q', rfl⟩ := Datum.unplaced_eq_integer he
    simp only [readType, int64?_toString fits, Option.filter_some, size, decide_true, if_true,
      ih he']
    rfl
  | template isName known args ih =>
    obtain ⟨p, q, ds, rfl, hds⟩ := Datum.unplaced_eq_form hd
    obtain ⟨e, es, rfl, he, hes⟩ := Datum.unplaced_eq_cons hds
    rw [Ty.toData_eq_map] at hes
    have hread := readTypes_of_readable known (fun t ht => ih t ht) hes
    simp only [readType, readName_of_isName isName he, hread]
    rfl
  | custom isPath segments free =>
    obtain ⟨p, rfl⟩ := Datum.unplaced_eq_symbol hd
    rw [readType, joinPath_names, readTypeName_of_path isPath segments free]

end TreeReader

namespace Datum

@[simp] theorem legible_symbol : (symbol text).Legible ↔ IsSymbol text := by
  simp [symbol, Legible]

@[simp] theorem legible_integer : (integer text).Legible ↔ IsInteger text := by
  simp [integer, Legible]

@[simp] theorem legible_str : (str text).Legible ↔ '\x00' ∉ text.toList := by
  simp [str, Legible]

@[simp] theorem legible_ofItems : (ofItems ds).Legible ↔ ∀ d ∈ ds, d.Legible := by
  simp [ofItems, Legible]

@[simp] theorem legible_ofEntries {es} :
    (ofEntries es).Legible ↔ ∀ e ∈ es, IsSymbol e.1 ∧ e.2.Legible := by
  simp only [ofEntries, Legible, legibleEntries_iff, true_and]

end Datum

/-- A readable type has a legible written form. -/
theorem Ty.Readable.legible {t : Ty} (h : t.Readable) : t.toDatum.Legible := by
  have hword : ∀ s ∈ ["_", "ref", "mut", "ptr", "tuple", "array", "template"], IsSymbol s := by
    decide
  simp only [List.forall_mem_cons] at hword
  obtain ⟨hunknown, href, hmut, hptr, htuple, harray, htemplate, -⟩ := hword
  induction h with
  | unknown => simpa [Ty.toDatum] using hunknown
  | basic named => simpa [Ty.toDatum] using (TreeReader.ofName?_toString named).2.2
  | unit => simp [Ty.toDatum]
  | ref m target ih => cases m <;> simp [Ty.toDatum, href, hmut, ih]
  | ptr target ih => simp [Ty.toDatum, hptr, ih]
  | tuple nonempty known elems ih => simpa [Ty.toDatum, htuple] using ih
  | array size fits elem ih => simpa [Ty.toDatum, harray, ih] using isInteger_toString _
  | template isName known args ih =>
    simpa [Ty.toDatum, htemplate, Ident.text, isName.symbol] using ih
  | custom isPath segments free =>
    simpa [Ty.toDatum, TreeReader.joinPath_names] using isPath.symbol

end TreeSema
