import Mathlib
import TreeSema.Datum.Match
import TreeSema.Proofs.RoundTrip.Datum

/-!
# Patterns and their instances

`Fits R p a` says that the datum `a` has the form that the pattern `p` asks for, where `R` relates
the parts of `p` to those of `a`. With the matcher itself in the place of `R`, this is what one step
of the matcher finds out (`matches_iff_fits`); closed under itself, it is the relation between a
pattern and its instances.

* `matched_iff_instance`: on data that repeat no key, the matcher finds no difference if
  and only if the datum is an instance of the pattern.
* `Matches.at`: below a pattern that fits, every map of the pattern fits what stands in its place.
* `keys_of_matched_maps`: if no map of a pattern repeats a key, then each of them names exactly the
  keys of the map it fits, and what was read fits itself.
* `repeatedKey_matches`: a map that repeats a key can fit a map with other keys, and need not fit
  itself.
-/
namespace TreeSema.Datum

variable {d p a : Datum} {i : Nat} {R : Datum → Datum → Prop} {path : List Step}

/-! ## Data without repeated keys -/

/-- Is the datum of one of the sorts that have a written form? -/
def isWritable : Datum → Bool
  | absent => false
  | unknown .. => false
  | _ => true

/-- The datum has a written form, and neither its metadata nor its entries repeat a key. -/
@[mk_iff] structure Plain (d : Datum) : Prop where
  writable : d.isWritable = true
  notes : (d.notes.map Prod.fst).Nodup
  keys : d.keys.Nodup

/-- No map and no metadata in the datum repeats a key, and all of it has a written form. -/
def Regular (d : Datum) : Prop := d.Every Plain

/-- No map in the datum repeats a key. -/
def DistinctKeys (d : Datum) : Prop := d.Every fun e => e.keys.Nodup

/-- An atom that can be read has no metadata. -/
theorem Legible.notes_atom {pos notes sort} {text : String}
    (h : (atom pos notes sort text).Legible) : notes = [] := by
  cases sort with
  | ellipsis => exact h
  | symbol | string | integer => exact h.1

/-- The parts of what can be read can be read. -/
theorem Legible.child {c : Datum} (h : d.Legible) (hc : c ∈ d.children) : c.Legible := by
  rcases List.mem_append.1 hc with hc | hc
  · cases d with
    | list => exact (legibleAll_iff _).1 h.2.2 c hc
    | array => exact (legibleAll_iff _).1 h.2 c hc
    | map =>
      obtain ⟨e, he, rfl⟩ := List.mem_map.1 hc
      exact ((legibleEntries_iff _).1 h.2 e he).2
    | absent | atom | unknown => exact absurd hc List.not_mem_nil
  · obtain ⟨e, he, rfl⟩ := List.mem_map.1 hc
    cases d with
    | list => exact ((legibleEntries_iff _).1 h.2.1 e he).2
    | atom => exact absurd (h.notes_atom ▸ he) List.not_mem_nil
    | array | map => exact absurd (h.1 ▸ he) List.not_mem_nil
    | absent | unknown => exact h.elim

theorem Legible.writable (h : d.Legible) : d.isWritable = true := by
  cases d with
  | absent | unknown => exact h.elim
  | atom | list | array | map => rfl

theorem Legible.nodup_notes (h : d.Legible) : (d.notes.map Prod.fst).Nodup := by
  cases d with
  | list => exact h.1
  | atom => simp [Datum.notes, h.notes_atom]
  | array | map => simp [Datum.notes, h.1]
  | absent | unknown => exact h.elim

/-- Whatever is read is regular if no map in it repeats a key. -/
theorem regular_of_read {src : String} (h : Datum.read src = .ok d)
    (hkeys : d.DistinctKeys) : d.Regular := by
  intro e he
  have hlegible : e.Legible := he.inherits Legible.child (legible_of_read h)
  exact ⟨hlegible.writable, hlegible.nodup_notes, hkeys e he⟩

/-- The matcher finds no difference. -/
def Matches (p a : Datum) : Prop := p.mismatch? a = none

/-! ## Instances -/

section Fits

variable {S : Datum → Datum → Prop} {ps as : List Datum} {es es' : List (String × Datum)}

/-- The items correspond one to one; an ellipsis at the end stands for any further items. -/
@[mk_iff] inductive LinedUp (R : Datum → Datum → Prop) : List Datum → List Datum → Prop
  | closed {ps as : List Datum} (h : List.Forall₂ R ps as) : LinedUp R ps as
  | more {ps as : List Datum} {e : Datum} (rest : List Datum) (h : List.Forall₂ R ps as)
      (he : e.isEllipsis = true) : LinedUp R (ps ++ [e]) (as ++ rest)

/-- Values under the same key correspond. -/
def ValuesAgree (R : Datum → Datum → Prop) (es es' : List (String × Datum)) : Prop :=
  ∀ key p a, (key, p) ∈ es → (key, a) ∈ es' → R p a

/-- The datum has the form of the pattern, and their parts correspond. -/
inductive Fits (R : Datum → Datum → Prop) : Datum → Datum → Prop
  | any {pos notes} (a : Datum) : Fits R (atom pos notes .symbol "_") a
  | atom {pos notes pos' notes'} (sort : AtomSort) (text : String) :
      Fits R (atom pos notes sort text) (atom pos' notes' sort text)
  | ellipsis {pos notes pos' notes'} (text text' : String) :
      Fits R (atom pos notes .ellipsis text) (atom pos' notes' .ellipsis text')
  | list {pos notes items pos' notes' items'}
      (hkeys : notes.map Prod.fst ⊆ notes'.map Prod.fst) (hnotes : ValuesAgree R notes notes')
      (hitems : LinedUp R items items') : Fits R (list pos notes items) (list pos' notes' items')
  | array {pos notes items pos' notes' items'}
      (hkeys : notes.map Prod.fst ⊆ notes'.map Prod.fst) (hnotes : ValuesAgree R notes notes')
      (hitems : LinedUp R items items') : Fits R (array pos notes items) (array pos' notes' items')
  | map {pos notes entries pos' notes' entries'}
      (hkeys : ∀ key, key ∈ entries.map Prod.fst ↔ key ∈ entries'.map Prod.fst)
      (hentries : ValuesAgree R entries entries') :
      Fits R (map pos notes entries) (map pos' notes' entries')

/-- The datum is an instance of the pattern. -/
inductive Instance : Datum → Datum → Prop
  | intro {p a : Datum} (h : Fits Instance p a) : Instance p a

theorem LinedUp.imp (h : LinedUp R ps as) (hRS : ∀ p ∈ ps, ∀ a ∈ as, R p a → S p a) :
    LinedUp S ps as := by
  have himp : ∀ {ps' as'}, List.Forall₂ R ps' as' → ps' ⊆ ps → as' ⊆ as →
      List.Forall₂ S ps' as' := by
    intro ps' as' h hps has
    refine List.forall₂_iff_zip.2 ⟨h.length_eq, fun hpair => ?_⟩
    obtain ⟨hp, ha⟩ := List.of_mem_zip hpair
    exact hRS _ (hps hp) _ (has ha) (List.forall₂_zip h hpair)
  cases h with
  | closed h => exact .closed (himp h (List.Subset.refl _) (List.Subset.refl _))
  | more rest h he =>
    exact .more rest (himp h (List.subset_append_left _ _) (List.subset_append_left _ _)) he

/-- Unless the pattern ends there in an ellipsis, the first items correspond and the others do. -/
theorem linedUp_cons (h : ¬ (p.isEllipsis = true ∧ ps = [])) :
    LinedUp R (p :: ps) (a :: as) ↔ R p a ∧ LinedUp R ps as := by
  constructor
  · rw [linedUp_iff]
    rintro (hall | ⟨ps', as', e, rest, hall, he, hps, has⟩)
    · obtain ⟨hpa, hall⟩ := List.forall₂_cons.1 hall
      exact ⟨hpa, .closed hall⟩
    · cases hall with
      | nil =>
        cases hps
        exact absurd ⟨he, rfl⟩ h
      | cons hpa hall =>
        cases hps
        cases has
        exact ⟨hpa, .more rest hall he⟩
  · rintro ⟨hpa, hall⟩
    cases hall with
    | closed hall => exact .closed (.cons hpa hall)
    | more rest hall he => exact .more rest (.cons hpa hall) he

theorem not_linedUp_nil_right (h : ¬ (p.isEllipsis = true ∧ ps = [])) :
    ¬ LinedUp R (p :: ps) [] := by
  rw [linedUp_iff]
  rintro (hall | ⟨ps', as', e, rest, hall, he, hps, has⟩)
  · cases hall
  · cases hall with
    | nil =>
      cases hps
      exact h ⟨he, rfl⟩
    | cons => cases has

theorem not_linedUp_nil_left : ¬ LinedUp R [] (a :: as) := by
  rw [linedUp_iff]
  rintro (hall | ⟨ps', as', e, rest, -, -, hps, -⟩)
  · cases hall
  · exact absurd hps (by simp)

theorem ValuesAgree.imp (h : ValuesAgree R es es')
    (hRS : ∀ e ∈ es, ∀ e' ∈ es', R e.2 e'.2 → S e.2 e'.2) : ValuesAgree S es es' :=
  fun key p a hp ha => hRS (key, p) hp (key, a) ha (h key p a hp ha)

/-- A pattern goes on to fit when its parts are related in another way. -/
theorem Fits.imp (h : Fits R p a)
    (hRS : ∀ p' ∈ p.children, ∀ a' ∈ a.children, R p' a' → S p' a') : Fits S p a := by
  cases h with
  | any => exact .any a
  | atom sort text => exact .atom sort text
  | ellipsis text text' => exact .ellipsis text text'
  | list hkeys hnotes hitems =>
    refine .list hkeys (hnotes.imp fun e he e' he' => ?_) (hitems.imp fun p hp a ha => ?_)
    · exact hRS _ (mem_children_of_note he) _ (mem_children_of_note he')
    · exact hRS _ (mem_children_of_content hp) _ (mem_children_of_content ha)
  | array hkeys hnotes hitems =>
    refine .array hkeys (hnotes.imp fun e he e' he' => ?_) (hitems.imp fun p hp a ha => ?_)
    · exact hRS _ (mem_children_of_note he) _ (mem_children_of_note he')
    · exact hRS _ (mem_children_of_content hp) _ (mem_children_of_content ha)
  | map hkeys hentries =>
    refine .map hkeys (hentries.imp fun e he e' he' => ?_)
    exact hRS _ (mem_children_of_content (List.mem_map_of_mem he)) _
      (mem_children_of_content (List.mem_map_of_mem he'))

end Fits

/-! ## What the matcher asks for -/

section Matcher

variable {pos : Text.Pos} {notes es es' : List (String × Datum)} {items : List Datum}

/-- Every key is found, and what is found under it matches. -/
def Finds (es es' : List (String × Datum)) : Prop :=
  ∀ e ∈ es, ∃ a, es'.lookup e.1 = some a ∧ e.2.Matches a

theorem finds_cons {key : String} : Finds ((key, p) :: es) es' ↔
    (∃ a, es'.lookup key = some a ∧ p.Matches a) ∧ Finds es es' := List.forall_mem_cons

theorem mismatchNotes_eq_none : mismatchNotes es es' = none ↔ Finds es es' := by
  induction es with
  | nil => simp [mismatchNotes, Finds]
  | cons e es ih =>
    obtain ⟨key, p⟩ := e
    rw [mismatchNotes, finds_cons, ← ih]
    cases es'.lookup key <;> simp [Matches]

theorem mismatchEntries_eq_none {whole} : mismatchEntries es whole es' = none ↔ Finds es es' := by
  induction es with
  | nil => simp [mismatchEntries, Finds]
  | cons e es ih =>
    obtain ⟨key, p⟩ := e
    rw [mismatchEntries, finds_cons, ← ih]
    cases es'.lookup key <;> simp [Matches]

theorem mismatchItems_eq_none {ps as} : mismatchItems i ps as = none ↔ LinedUp Matches ps as := by
  induction ps generalizing i as with
  | nil =>
    cases as with
    | nil => simpa [mismatchItems] using LinedUp.closed .nil
    | cons a as => simpa [mismatchItems] using not_linedUp_nil_left
  | cons p ps ih =>
    rw [mismatchItems.eq_def]
    dsimp only
    by_cases hlast : p.isEllipsis = true ∧ ps = []
    · obtain ⟨he, rfl⟩ := hlast
      simpa [he] using LinedUp.more as .nil he
    · rw [if_neg (by simpa using hlast)]
      cases as with
      | nil => simpa using not_linedUp_nil_right hlast
      | cons a as => simp [linedUp_cons hlast, ← ih (i := i + 1), Matches]

theorem matches_atom {sort} {text : String} : Matches (atom pos notes sort text) a ↔
    a ≠ absent ∧ ((sort = .symbol ∧ text = "_") ∨ ∃ pos' notes' text',
      a = atom pos' notes' sort text' ∧ (sort = .ellipsis ∨ text = text')) := by
  have hany : (atom pos notes sort text).isSymbol "_" = true ↔ sort = .symbol ∧ text = "_" := by
    cases sort <;> simp [isSymbol]
  cases a with
  | absent => simp [Matches, mismatch?]
  | atom pos' notes' sort' text' =>
    simp only [Matches, mismatch?, hany]
    split
    · rename_i hwild
      simp [hwild]
    · rename_i hnot
      simp only [hnot, false_or, ne_eq, reduceCtorEq, not_false_eq_true, true_and]
      constructor
      · intro h
        by_cases hsame : sort = sort' ∧ (sort = .ellipsis ∨ text = text')
        · obtain ⟨rfl, htext⟩ := hsame
          exact ⟨pos', notes', text', rfl, htext⟩
        · rw [if_neg hsame] at h
          cases h
      · rintro ⟨_, _, _, ⟨rfl, rfl, rfl, rfl⟩, htext⟩
        rw [if_pos ⟨rfl, htext⟩]
  | list | array | map | unknown =>
    simp [Matches, mismatch?, hany]

theorem matches_list : Matches (list pos notes items) a ↔ ∃ pos' notes' items',
    a = list pos' notes' items' ∧ Finds notes notes' ∧ LinedUp Matches items items' := by
  cases a with
  | list pos' notes' items' =>
    simp [Matches, mismatch?, mismatchNotes_eq_none, mismatchItems_eq_none]
  | absent | atom | array | map | unknown => simp [Matches, mismatch?]

theorem matches_array : Matches (array pos notes items) a ↔ ∃ pos' notes' items',
    a = array pos' notes' items' ∧ Finds notes notes' ∧ LinedUp Matches items items' := by
  cases a with
  | array pos' notes' items' =>
    simp [Matches, mismatch?, mismatchNotes_eq_none, mismatchItems_eq_none]
  | absent | atom | list | map | unknown => simp [Matches, mismatch?]

theorem matches_map : Matches (map pos notes es) a ↔ ∃ pos' notes' es',
    a = map pos' notes' es' ∧ es.length = es'.length ∧ Finds es es' := by
  cases a with
  | map pos' notes' es' =>
    simp only [Matches, mismatch?]
    split
    · rename_i hlength
      simp [hlength]
    · rename_i hlength
      simpa [mismatchEntries_eq_none] using fun _ => not_not.1 hlength
  | absent | atom | list | array | unknown => simp [Matches, mismatch?]

theorem Finds.keys_subset (h : Finds es es') : es.map Prod.fst ⊆ es'.map Prod.fst := by
  intro key hkey
  obtain ⟨e, he, rfl⟩ := List.mem_map.1 hkey
  obtain ⟨a, ha, -⟩ := h e he
  exact List.mem_map.2 ⟨(e.1, a), mem_of_lookup ha, rfl⟩

/-- Among distinct keys it does not matter how a value is found. -/
theorem finds_iff (hnodup : (es'.map Prod.fst).Nodup) :
    Finds es es' ↔ es.map Prod.fst ⊆ es'.map Prod.fst ∧ ValuesAgree Matches es es' := by
  constructor
  · intro h
    refine ⟨h.keys_subset, fun key p a hp ha => ?_⟩
    obtain ⟨a', ha', hmatch⟩ := h (key, p) hp
    cases (lookup_of_mem hnodup ha).symm.trans ha'
    exact hmatch
  · rintro ⟨hkeys, hvalues⟩ ⟨key, p⟩ hp
    obtain ⟨⟨_, a⟩, ha, rfl⟩ := List.mem_map.1 (hkeys (List.mem_map_of_mem hp))
    exact ⟨a, lookup_of_mem hnodup ha, hvalues _ p a hp ha⟩

/-- Distinct keys that are all found in as many entries are the keys of these entries. -/
theorem Finds.keys_perm (h : Finds es es') (hlength : es.length = es'.length)
    (hnodup : (es.map Prod.fst).Nodup) : (es.map Prod.fst).Perm (es'.map Prod.fst) := by
  refine (hnodup.subperm h.keys_subset).perm_of_length_le ?_
  simp [hlength]

/-- One step of the matcher. -/
theorem matches_iff_fits (hp : p.Plain) (ha : a.Plain) : p.Matches a ↔ Fits Matches p a := by
  cases p with
  | absent | unknown => exact absurd hp.writable (by simp [isWritable])
  | atom pos notes sort text =>
    rw [matches_atom]
    constructor
    · rintro ⟨-, ⟨rfl, rfl⟩ | ⟨pos', notes', text', rfl, rfl | rfl⟩⟩
      · exact .any a
      · exact .ellipsis text text'
      · exact .atom sort text
    · intro h
      have hne : a ≠ absent := by
        rintro rfl
        exact absurd ha.writable (by simp [isWritable])
      refine ⟨hne, ?_⟩
      cases h with
      | any => exact .inl ⟨rfl, rfl⟩
      | atom => exact .inr ⟨_, _, _, rfl, .inr rfl⟩
      | ellipsis => exact .inr ⟨_, _, _, rfl, .inl rfl⟩
  | list pos notes items =>
    rw [matches_list]
    constructor
    · rintro ⟨pos', notes', items', rfl, hnotes, hitems⟩
      obtain ⟨hkeys, hvalues⟩ := (finds_iff ha.notes).1 hnotes
      exact .list hkeys hvalues hitems
    · intro h
      cases h with
      | list hkeys hnotes hitems =>
        exact ⟨_, _, _, rfl, (finds_iff ha.notes).2 ⟨hkeys, hnotes⟩, hitems⟩
  | array pos notes items =>
    rw [matches_array]
    constructor
    · rintro ⟨pos', notes', items', rfl, hnotes, hitems⟩
      obtain ⟨hkeys, hvalues⟩ := (finds_iff ha.notes).1 hnotes
      exact .array hkeys hvalues hitems
    · intro h
      cases h with
      | array hkeys hnotes hitems =>
        exact ⟨_, _, _, rfl, (finds_iff ha.notes).2 ⟨hkeys, hnotes⟩, hitems⟩
  | map pos notes entries =>
    rw [matches_map]
    constructor
    · rintro ⟨pos', notes', entries', rfl, hlength, hfinds⟩
      obtain ⟨-, hvalues⟩ := (finds_iff ha.keys).1 hfinds
      exact .map (fun key => (hfinds.keys_perm hlength hp.keys).mem_iff) hvalues
    · intro h
      cases h with
      | map hkeys hentries =>
        have hperm := (List.perm_ext_iff_of_nodup hp.keys ha.keys).2 hkeys
        refine ⟨_, _, _, rfl, by simpa [keys] using hperm.length_eq,
          (finds_iff ha.keys).2 ⟨?_, hentries⟩⟩
        exact fun key => (hkeys key).1

end Matcher

/-! ## Whole patterns -/

/-- On data of the sorts that have a written form, no map or metadata of which repeats a key, the
matcher finds no difference if and only if the datum is an instance of the pattern. -/
theorem matched_iff_instance {p a : Datum} (hp : p.Regular) (ha : a.Regular) :
    p.mismatch? a = none ↔ Instance p a := by
  -- the step of the matcher, its parts being related as the induction hypothesis says
  induction p using induction_on_children generalizing a with
  | step p ih =>
    have hparts : ∀ p' ∈ p.children, ∀ a' ∈ a.children, p'.Matches a' ↔ Instance p' a' :=
      fun p' hp' a' ha' => ih p' hp' (hp.child hp') (ha.child ha')
    have hstep := matches_iff_fits hp.self ha.self
    constructor
    · intro h
      exact .intro ((hstep.1 h).imp fun p' hp' a' ha' => (hparts p' hp' a' ha').1)
    · rintro ⟨h⟩
      exact hstep.2 (h.imp fun p' hp' a' ha' => (hparts p' hp' a' ha').2)

/-- A list with metadata and a map, its further items left open:

    (f ^{k: _} {b: 2, a: _} ...)
-/
def samplePattern : Datum :=
  .list .nowhere [("k", symbol "_")]
    [symbol "f", ofEntries [("b", integer "2"), ("a", symbol "_")],
      .atom .nowhere [] .ellipsis "..."]

/-- An instance of it:

    (f ^{j: x, k: 1} {a: [g], b: 2} 3 "s")
-/
def sampleInstance : Datum :=
  .list .nowhere [("j", symbol "x"), ("k", integer "1")]
    [symbol "f", ofEntries [("a", .array .nowhere [] [symbol "g"]), ("b", integer "2")], integer "3",
      str "s"]

theorem matched_iff_instance_sample :
    samplePattern.Regular ∧ sampleInstance.Regular ∧ Instance samplePattern sampleInstance ∧
      ¬ Instance sampleInstance samplePattern := by
  have hp : samplePattern.Regular := by
    simp [samplePattern, Regular, plain_iff, isWritable, notes, keys, symbol, integer, ofEntries]
  have ha : sampleInstance.Regular := by
    simp [sampleInstance, Regular, plain_iff, isWritable, notes, keys, symbol, integer, str,
      ofEntries]
  have hmissing : sampleInstance.mismatch? samplePattern = some (.here (.noNote "j")) := by cbv
  refine ⟨hp, ha, (matched_iff_instance hp ha).1 (by cbv), fun h => ?_⟩
  cases hmissing.symm.trans ((matched_iff_instance ha hp).2 h)

/-- Every datum has its own form. -/
theorem Plain.fits_self (hd : d.Plain) (hR : ∀ c ∈ d.children, R c c) : Fits R d d := by
  have hagree : ∀ {es : List (String × Datum)}, (es.map Prod.fst).Nodup →
      (∀ e ∈ es, e.2 ∈ d.children) → ValuesAgree R es es := by
    intro es hnodup hes key p a hp ha
    have heq : some p = some a := (lookup_of_mem hnodup hp).symm.trans (lookup_of_mem hnodup ha)
    cases heq
    exact hR p (hes _ hp)
  have hitems : ∀ {items : List Datum}, (∀ c ∈ items, c ∈ d.children) → LinedUp R items items :=
    fun hitems => .closed (List.forall₂_same.2 fun c hc => hR c (hitems c hc))
  cases d with
  | absent | unknown => exact absurd hd.writable (by simp [isWritable])
  | atom pos notes sort text => exact .atom sort text
  | list =>
    exact .list (List.Subset.refl _) (hagree hd.notes fun e he => mem_children_of_note he)
      (hitems fun c hc => mem_children_of_content hc)
  | array =>
    exact .array (List.Subset.refl _) (hagree hd.notes fun e he => mem_children_of_note he)
      (hitems fun c hc => mem_children_of_content hc)
  | map =>
    refine .map (fun key => .rfl) (hagree hd.keys fun e he => mem_children_of_content ?_)
    exact List.mem_map_of_mem he

/-- A regular datum matches itself. -/
theorem Regular.matches_self (hd : d.Regular) : d.Matches d := by
  induction d using induction_on_children with
  | step d ih =>
    exact (matches_iff_fits hd.self hd.self).2 (hd.self.fits_self fun c hc => ih c hc (hd.child hc))

/-! ## Maps in a pattern -/

def isMap : Datum → Bool
  | map .. => true
  | _ => false

/-- The part that a step leads to. -/
def step? : Datum → Step → Option Datum
  | list _ _ items, .item i => items[i]?
  | array _ _ items, .item i => items[i]?
  | list _ notes _, .note key => notes.lookup key
  | array _ notes _, .note key => notes.lookup key
  | map _ _ entries, .entry key => entries.lookup key
  | _, _ => none

/-- The part that a path leads to. -/
def at? : List Step → Datum → Option Datum
  | [], d => some d
  | s :: path, d => (d.step? s).bind (at? path)

theorem mem_children_of_step? {c s} (h : d.step? s = some c) : c ∈ d.children := by
  unfold step? at h
  split at h
  · exact mem_children_of_content (List.mem_of_getElem? h)
  · exact mem_children_of_content (List.mem_of_getElem? h)
  · exact mem_children_of_note (mem_of_lookup h)
  · exact mem_children_of_note (mem_of_lookup h)
  · exact mem_children_of_content (List.mem_map.2 ⟨_, mem_of_lookup h, rfl⟩)
  · cases h

theorem part_of_at? {e} (h : d.at? path = some e) : d.Part e := by
  induction path generalizing d with
  | nil =>
    cases h
    exact .self _
  | cons s path ih =>
    obtain ⟨c, hc, he⟩ := Option.bind_eq_some_iff.1 h
    exact .of_child (mem_children_of_step? hc) (ih he)

/-- Nothing lies in an atom. -/
theorem not_ellipsis_of_at? {e : Datum} (h : d.at? path = some e)
    (he : e.isMap = true) : d.isEllipsis = false := by
  cases d with
  | atom =>
    cases path with
    | nil =>
      cases h
      cases he
    | cons => cases h
  | absent | list | array | map | unknown => rfl

theorem forall₂_getElem? {ps as} (h : List.Forall₂ R ps as) (hp : ps[i]? = some p) :
    ∃ a, as[i]? = some a ∧ R p a := by
  induction h generalizing i with
  | nil => simp at hp
  | @cons q b ps as hqb _ ih =>
    cases i with
    | zero =>
      cases (List.getElem?_cons_zero (a := q) (l := ps)).symm.trans hp
      exact ⟨b, rfl, hqb⟩
    | succ i => exact ih hp

/-- An item of the pattern other than an ellipsis has its counterpart. -/
theorem LinedUp.getElem? {ps as} (h : LinedUp R ps as) (hp : ps[i]? = some p)
    (hne : p.isEllipsis = false) : ∃ a, as[i]? = some a ∧ R p a := by
  cases h with
  | closed h => exact forall₂_getElem? h hp
  | @more ps as e rest h he =>
    have hi : i < ps.length := by
      by_contra hi
      rw [List.getElem?_append_right (Nat.le_of_not_lt hi)] at hp
      have hpe := List.mem_singleton.1 (List.mem_of_getElem? hp)
      rw [hpe, he] at hne
      cases hne
    rw [List.getElem?_append_left hi] at hp
    obtain ⟨a, ha, hpa⟩ := forall₂_getElem? h hp
    have hlt := (List.getElem?_eq_some_iff.1 ha).1
    exact ⟨a, by rwa [List.getElem?_append_left hlt], hpa⟩

/-- A step into a pattern that matches is a step into the datum. -/
theorem Matches.step {p' : Datum} {s} (h : p.Matches a) (hs : p.step? s = some p')
    (hne : p'.isEllipsis = false) : ∃ a', a.step? s = some a' ∧ p'.Matches a' := by
  have hkey : ∀ {es es' : List (String × Datum)} {key : String}, Finds es es' →
      es.lookup key = some p' → ∃ a', es'.lookup key = some a' ∧ p'.Matches a' :=
    fun hfinds hp' => hfinds _ (mem_of_lookup hp')
  unfold step? at hs
  split at hs
  · obtain ⟨_, _, _, rfl, -, hitems⟩ := matches_list.1 h
    exact hitems.getElem? hs hne
  · obtain ⟨_, _, _, rfl, -, hitems⟩ := matches_array.1 h
    exact hitems.getElem? hs hne
  · obtain ⟨_, _, _, rfl, hnotes, -⟩ := matches_list.1 h
    exact hkey hnotes hs
  · obtain ⟨_, _, _, rfl, hnotes, -⟩ := matches_array.1 h
    exact hkey hnotes hs
  · obtain ⟨_, _, _, rfl, -, hentries⟩ := matches_map.1 h
    exact hkey hentries hs
  · cases hs

/-- Where the pattern that matches has a map, the datum has one that matches it. -/
theorem Matches.at {q : Datum} (h : p.Matches a) (hq : p.at? path = some q)
    (hmap : q.isMap = true) : ∃ b, a.at? path = some b ∧ q.Matches b := by
  induction path generalizing p a with
  | nil =>
    cases hq
    exact ⟨a, rfl, h⟩
  | cons s path ih =>
    obtain ⟨p', hp', hq⟩ := Option.bind_eq_some_iff.1 hq
    obtain ⟨a', ha', hmatch⟩ := h.step hp' (not_ellipsis_of_at? hq hmap)
    obtain ⟨b, hb, hqb⟩ := ih hmatch hq
    exact ⟨b, Option.bind_eq_some_iff.2 ⟨a', ha', hb⟩, hqb⟩

/-- A map that repeats no key matches only maps with exactly its keys. -/
theorem Matches.keys_iff {q b : Datum} (h : q.Matches b) (hmap : q.isMap = true)
    (hnodup : q.keys.Nodup) : b.isMap = true ∧ ∀ key, key ∈ q.keys ↔ key ∈ b.keys := by
  cases q with
  | map =>
    obtain ⟨_, _, _, rfl, hlength, hfinds⟩ := matches_map.1 h
    exact ⟨rfl, fun key => (hfinds.keys_perm hlength hnodup).mem_iff⟩
  | absent | atom | list | array | unknown => cases hmap

/-- If no map of a pattern repeats a key, then wherever one of them matches a datum in its place, the
two have the same keys; there is such a datum for each of them if the whole pattern matches; and a
pattern that was read matches itself. -/
theorem keys_of_matched_maps {src : String} {p : Datum} (hread : Datum.read src = .ok p)
    (hdistinct : p.DistinctKeys) :
    (∀ (a : Datum) (path : List Step) (q : Datum), p.at? path = some q → q.isMap = true →
      (∀ b, a.at? path = some b → q.mismatch? b = none →
        b.isMap = true ∧ ∀ key, key ∈ q.keys ↔ key ∈ b.keys) ∧
      (p.mismatch? a = none → ∃ b, a.at? path = some b ∧ q.mismatch? b = none)) ∧
    p.mismatch? p = none := by
  refine ⟨fun a path q hq hmap => ⟨fun b _ hmatch => ?_, fun hmatch => ?_⟩, ?_⟩
  · exact Matches.keys_iff hmatch hmap (hdistinct q (part_of_at? hq))
  · exact Matches.at hmatch hq hmap
  · exact (regular_of_read hread hdistinct).matches_self

/-- `[{b: _, a: 1} ...]`, as it is read. -/
def openArray : Datum :=
  .array ⟨1, 1⟩ []
    [.map ⟨1, 2⟩ [] [("b", .atom ⟨1, 6⟩ [] .symbol "_"), ("a", .atom ⟨1, 12⟩ [] .integer "1")],
      .atom ⟨1, 15⟩ [] .ellipsis "..."]

/-- `[{a: 1, b: x} y]` -/
def fullArray : Datum :=
  .array .nowhere [] [ofEntries [("a", integer "1"), ("b", symbol "x")], symbol "y"]

theorem keys_of_matched_maps_openArray :
    Datum.read "[\x7bb: _, a: 1\x7d ...]" = .ok openArray ∧ openArray.DistinctKeys ∧
      openArray.mismatch? openArray = none ∧
      ∃ b, fullArray.at? [.item 0] = some b ∧ ∀ key, key ∈ ["b", "a"] ↔ key ∈ b.keys := by
  have hread : Datum.read "[\x7bb: _, a: 1\x7d ...]" = .ok openArray := by cbv
  have hdistinct : openArray.DistinctKeys := by simp [DistinctKeys, openArray, keys]
  obtain ⟨hkeys, hself⟩ := keys_of_matched_maps hread hdistinct
  obtain ⟨b, hb, hmatch⟩ := (hkeys fullArray [.item 0] _ rfl rfl).2 (by cbv)
  exact ⟨hread, hdistinct, hself, b, hb, ((hkeys fullArray _ _ rfl rfl).1 b hb hmatch).2⟩

/-- A map that repeats a key matches a map with another key in the place of the repetition, and it
does not match itself if it repeats the key with another value. -/
theorem repeatedKey_matches :
    ∃ p a d, Datum.read "\x7ba: 1, a: 1\x7d" = .ok p ∧ Datum.read "\x7ba: 1, b: 2\x7d" = .ok a ∧
      Datum.read "\x7ba: 1, a: 2\x7d" = .ok d ∧
      p.mismatch? a = none ∧ (¬ ∀ key, key ∈ p.keys ↔ key ∈ a.keys) ∧ d.mismatch? d ≠ none := by
  refine ⟨.map ⟨1, 1⟩ [] [("a", .atom ⟨1, 5⟩ [] .integer "1"), ("a", .atom ⟨1, 11⟩ [] .integer "1")],
    .map ⟨1, 1⟩ [] [("a", .atom ⟨1, 5⟩ [] .integer "1"), ("b", .atom ⟨1, 11⟩ [] .integer "2")],
    .map ⟨1, 1⟩ [] [("a", .atom ⟨1, 5⟩ [] .integer "1"), ("a", .atom ⟨1, 11⟩ [] .integer "2")],
    by cbv, by cbv, by cbv, by cbv, fun h => absurd ((h "b").2 (by decide)) (by decide), ?_⟩
  have hfirst : (Datum.map ⟨1, 1⟩ [] [("a", .atom ⟨1, 5⟩ [] .integer "1"),
      ("a", .atom ⟨1, 11⟩ [] .integer "2")]).mismatch? (.map ⟨1, 1⟩ []
        [("a", .atom ⟨1, 5⟩ [] .integer "1"), ("a", .atom ⟨1, 11⟩ [] .integer "2")]) =
      some ⟨[.entry "a"], .differs (.atom ⟨1, 11⟩ [] .integer "2")
        (.atom ⟨1, 5⟩ [] .integer "1")⟩ := by cbv
  simp [hfirst]

end TreeSema.Datum
