import TreeSema.Datum.Reader
import TreeSema.Proofs.Keyed
import Mathlib.Data.List.Permutation
import Mathlib.Data.List.TakeWhile

/-!
# The grammar of data

`Derives ts d` says that the tokens `ts` are the datum `d`, by the rules

    datum ::= symbol | string | integer | '...' | '(' (datum | '^' map)* ')' | map | '[' datum* ']'
    map   ::= '{' [entry (',' entry)* [',']] '}'
    entry ::= symbol ':' datum

A list is derived with everything that its metadata maps say, in order; `Merged` says which metadata
that amounts to.

* `merged_iff`: the reader merges metadata as `Merged` says.
* `readDatum_of_derives`: what is derived is read, given enough fuel and whatever comes after it.
* `readsDerived`: what is read is derived.
* `readTokens_eq_ok`: a token sequence is read as a datum if and only if it derives it.
* `Datum.read_eq_ok_iff`: so is a text without NUL that is cut into tokens without a fault.
-/
namespace TreeSema

open Text (Pos)

/-- The entries `given` amount to the metadata `notes`: a key stands where it was given first and has
the value that it was given last. -/
structure Merged (given notes : List (String × Datum)) : Prop where
  keys : notes.map Prod.fst = (given.map Prod.fst).eraseDups
  values (key : String) : notes.lookup key = given.reverse.lookup key

mutual

/-- The tokens are a datum. -/
inductive Derives : List Token → Datum → Prop
  | symbol (p : Pos) (text : String) : Derives [⟨p, .symbol text⟩] (.atom p [] .symbol text)
  | string (p : Pos) (text : String) : Derives [⟨p, .string text⟩] (.atom p [] .string text)
  | integer (p : Pos) (text : String) : Derives [⟨p, .integer text⟩] (.atom p [] .integer text)
  | ellipsis (p : Pos) : Derives [⟨p, .ellipsis⟩] (.atom p [] .ellipsis "...")
  | list (p q : Pos) {ts : List Token} {given notes : List (String × Datum)} {items : List Datum} :
      DerivesItems ts given items → Merged given notes →
      Derives (⟨p, .openParen⟩ :: (ts ++ [⟨q, .closeParen⟩])) (.list p notes items)
  | map (p q : Pos) {ts : List Token} {entries : List (String × Datum)} :
      DerivesEntries ts entries →
      Derives (⟨p, .openBrace⟩ :: (ts ++ [⟨q, .closeBrace⟩])) (.map p [] entries)
  | array (p q : Pos) {ts : List Token} {items : List Datum} :
      DerivesElements ts items →
      Derives (⟨p, .openBracket⟩ :: (ts ++ [⟨q, .closeBracket⟩])) (.array p [] items)

/-- The tokens are items of a list, among which its metadata maps give the entries `given`. -/
inductive DerivesItems : List Token → List (String × Datum) → List Datum → Prop
  | nil : DerivesItems [] [] []
  | item {given ts ts' d items} :
      Derives ts d → DerivesItems ts' given items →
      DerivesItems (ts ++ ts') given (d :: items)
  | note (p q r : Pos) {entries given : List (String × Datum)} {ts ts' : List Token}
      {items : List Datum} : DerivesEntries ts entries → DerivesItems ts' given items →
      DerivesItems (⟨p, .caret⟩ :: ⟨q, .openBrace⟩ :: (ts ++ ⟨r, .closeBrace⟩ :: ts'))
        (entries ++ given) items

/-- The tokens are the entries of a map. -/
inductive DerivesEntries : List Token → List (String × Datum) → Prop
  | nil : DerivesEntries [] []
  | last (p q : Pos) (key : String) {ts : List Token} {d : Datum} : Derives ts d →
      DerivesEntries (⟨p, .symbol key⟩ :: ⟨q, .colon⟩ :: ts) [(key, d)]
  | entry (p q r : Pos) (key : String) {ts ts' : List Token} {d : Datum}
      {entries : List (String × Datum)} : Derives ts d → DerivesEntries ts' entries →
      DerivesEntries (⟨p, .symbol key⟩ :: ⟨q, .colon⟩ :: (ts ++ ⟨r, .comma⟩ :: ts'))
        ((key, d) :: entries)

/-- The tokens are the items of an array. -/
inductive DerivesElements : List Token → List Datum → Prop
  | nil : DerivesElements [] []
  | element {ts ts' d items} : Derives ts d →
      DerivesElements ts' items → DerivesElements (ts ++ ts') (d :: items)

end

/-! ## Metadata is merged -/

section Notes

variable {notes given : List (String × Datum)} {key : String} {d : Datum}

theorem mem_of_lookup (h : notes.lookup key = some d) : (key, d) ∈ notes := by
  obtain ⟨l₁, l₂, rfl, -⟩ := List.lookup_eq_some_iff.1 h
  simp

/-- Under distinct keys, everything is found. -/
theorem lookup_of_mem {e} (hnodup : (notes.map Prod.fst).Nodup) (he : e ∈ notes) :
    notes.lookup e.1 = some e.2 := by
  rw [Keyed.lookup_eq_find?, (Keyed.find?_eq_some_iff hnodup).2 ⟨he, rfl⟩, Option.map_some]

/-- Where each key stands once, a key is set by putting its entry. -/
theorem setNote_eq_put (hnodup : (notes.map Prod.fst).Nodup) :
    setNote notes key d = Keyed.put Prod.fst (key, d) notes := by
  induction notes with
  | nil => rfl
  | cons n notes ih =>
    obtain ⟨hn, hnotes⟩ := List.nodup_cons.1 hnodup
    unfold Keyed.put
    by_cases hk : n.1 = key
    · have hrest : notes.map (fun n => if n.1 = key then (key, d) else n) = notes := by
        refine (List.map_congr_left fun n' hn' => if_neg fun heq => hn ?_).trans (List.map_id notes)
        rw [hk, ← heq]
        exact List.mem_map_of_mem hn'
      simp [setNote, hk, hrest]
    · rw [if_neg hk, ← ih hnotes]
      simp only [setNote, List.any_cons, beq_false_of_ne hk, Bool.false_or, List.map_cons,
        List.cons_append]
      split <;> rfl

theorem mergeNotes_append (notes entries given : List (String × Datum)) :
    mergeNotes notes (entries ++ given) = mergeNotes (mergeNotes notes entries) given :=
  List.foldl_append

theorem mergeNotes_eq_puts (given : List (String × Datum)) :
    mergeNotes [] given = Keyed.puts Prod.fst given := by
  induction given using List.reverseRecOn with
  | nil => rfl
  | append_singleton given e ih =>
    rw [mergeNotes_append, ih, Keyed.puts_concat]
    exact setNote_eq_put (Keyed.nodup_puts Prod.fst given)

theorem Merged.nodup (h : Merged given notes) : (notes.map Prod.fst).Nodup := by
  rw [h.keys]
  exact Keyed.nodup_eraseDups _

/-- The reader merges metadata as `Merged` says. -/
theorem merged_iff : Merged given notes ↔ notes = mergeNotes [] given := by
  rw [mergeNotes_eq_puts]
  have hputs : Merged given (Keyed.puts Prod.fst given) :=
    ⟨Keyed.keys_puts given, fun key => by
      rw [Keyed.lookup_eq_find?, Keyed.find?_puts, Keyed.lookup_eq_find?]⟩
  constructor
  · intro h
    refine Keyed.eq_of_find? h.nodup (h.keys.trans hputs.keys.symm) fun key => ?_
    rw [Keyed.find?_eq_lookup, h.values, ← hputs.values, ← Keyed.find?_eq_lookup]
  · rintro rfl
    exact hputs

/-- Whatever is in the metadata was given. -/
theorem Merged.subset (h : Merged given notes) {e} (he : e ∈ notes) : e ∈ given := by
  have hfound := lookup_of_mem h.nodup he
  rw [h.values] at hfound
  exact List.mem_reverse.1 (mem_of_lookup hfound)

/-- Distinct keys are merged with nothing. -/
theorem merged_of_nodup (h : (given.map Prod.fst).Nodup) : Merged given given :=
  ⟨(Keyed.eraseDups_of_nodup h).symm, fun key => by
    rw [Keyed.lookup_eq_find?, Keyed.lookup_eq_find?, Keyed.find?_reverse h]⟩

end Notes

/-! ## What is derived is read -/

/-- The lexemes that a datum can start with. -/
def Lexeme.startsDatum : Lexeme → Bool
  | symbol _ | string _ | integer _ | ellipsis | openParen | openBrace | openBracket => true
  | _ => false

theorem Derives.starts {ts d} (h : Derives ts d) :
    ∃ t ts', ts = t :: ts' ∧ t.lexeme.startsDatum = true := by
  cases h <;> exact ⟨_, _, rfl, rfl⟩

theorem readItems_item {fuel : Nat} {notes} {t : Token} {ts} (ht : t.lexeme.startsDatum = true) :
    readItems (fuel + 1) notes (t :: ts) =
      (readDatum fuel (t :: ts)).bind fun r =>
        (readItems fuel notes r.2).bind fun r' => .ok (r'.1, r.1 :: r'.2.1, r'.2.2) := by
  obtain ⟨p, x⟩ := t
  cases x <;> first | rfl | cases ht

theorem readElements_element {fuel : Nat} {t : Token} {ts} (ht : t.lexeme.startsDatum = true) :
    readElements (fuel + 1) (t :: ts) =
      (readDatum fuel (t :: ts)).bind fun r =>
        (readElements fuel r.2).bind fun r' => .ok (r.1 :: r'.1, r'.2) := by
  obtain ⟨p, x⟩ := t
  cases x <;> first | rfl | cases ht

mutual

/-- Two steps for each token are enough. -/
theorem readDatum_of_derives {ts : List Token} {d} (h : Derives ts d) (fuel : Nat)
    (hfuel : 2 * ts.length ≤ fuel) (rest : List Token) :
    readDatum fuel (ts ++ rest) = .ok (d, rest) := by
  cases fuel with
  | zero =>
    obtain ⟨t, ts', rfl, -⟩ := h.starts
    simp at hfuel
  | succ fuel =>
    cases h with
    | symbol => rfl
    | string => rfl
    | integer => rfl
    | ellipsis => rfl
    | list p q hitems hmerged =>
      obtain rfl := merged_iff.1 hmerged
      simp only [List.length_cons, List.length_append, List.length_nil] at hfuel
      have hread := readItems_of_derives hitems [] fuel (by omega) q rest
      simp only [List.cons_append, List.append_assoc, List.nil_append, readDatum, hread]
      rfl
    | map p q hentries =>
      simp only [List.length_cons, List.length_append, List.length_nil] at hfuel
      have hread := readEntries_of_derives hentries fuel (by omega) q rest
      simp only [List.cons_append, List.append_assoc, List.nil_append, readDatum, hread]
      rfl
    | array p q helements =>
      simp only [List.length_cons, List.length_append, List.length_nil] at hfuel
      have hread := readElements_of_derives helements fuel (by omega) q rest
      simp only [List.cons_append, List.append_assoc, List.nil_append, readDatum, hread]
      rfl
  termination_by fuel

theorem readItems_of_derives {given} {ts : List Token} {items} (h : DerivesItems ts given items)
    (notes : List (String × Datum)) (fuel : Nat) (hfuel : 2 * ts.length + 1 ≤ fuel) (q : Pos)
    (rest : List Token) :
    readItems fuel notes (ts ++ ⟨q, .closeParen⟩ :: rest) =
      .ok (mergeNotes notes given, items, rest) := by
  obtain ⟨fuel, rfl⟩ := Nat.exists_eq_add_of_le' (Nat.le_of_add_left_le hfuel)
  cases h with
  | nil => rfl
  | item hd hitems =>
    rename_i ts ts' d items
    obtain ⟨t, ts₀, rfl, ht⟩ := hd.starts
    simp only [List.length_cons, List.length_append] at hfuel
    have hdatum := readDatum_of_derives hd fuel (by simp only [List.length_cons]; omega)
      (ts' ++ ⟨q, .closeParen⟩ :: rest)
    have hread := readItems_of_derives hitems notes fuel (by omega) q rest
    rw [List.append_assoc, List.cons_append, readItems_item ht, ← List.cons_append, hdatum]
    simp only [Except.bind, hread]
  | @note p _ r entries _ _ _ _ hentries hitems =>
    simp only [List.length_cons, List.length_append] at hfuel
    have hnote := readEntries_of_derives hentries fuel (by omega) r
    have hread := readItems_of_derives hitems (mergeNotes notes entries) fuel (by omega) q rest
    simp only [List.cons_append, List.append_assoc, readItems, hnote, mergeNotes_append]
    exact hread
  termination_by fuel

theorem readEntries_of_derives {ts : List Token} {entries} (h : DerivesEntries ts entries)
    (fuel : Nat) (hfuel : 2 * ts.length + 1 ≤ fuel) (q : Pos) (rest : List Token) :
    readEntries fuel (ts ++ ⟨q, .closeBrace⟩ :: rest) = .ok (entries, rest) := by
  obtain ⟨fuel, rfl⟩ := Nat.exists_eq_add_of_le' (Nat.le_of_add_left_le hfuel)
  cases h with
  | nil => rfl
  | last _ _ key hd =>
    simp only [List.length_cons] at hfuel
    have hdatum := readDatum_of_derives hd fuel (by omega)
    simp only [List.cons_append, readEntries, hdatum]
    rfl
  | entry _ _ r key hd hentries =>
    simp only [List.length_cons, List.length_append] at hfuel
    have hdatum := readDatum_of_derives hd fuel (by omega)
    have hread := readEntries_of_derives hentries fuel (by omega) q rest
    simp only [List.cons_append, List.append_assoc, readEntries, hdatum]
    change (readEntries fuel _ >>= _) = _
    rw [hread]
    rfl
  termination_by fuel

theorem readElements_of_derives {ts : List Token} {items} (h : DerivesElements ts items)
    (fuel : Nat) (hfuel : 2 * ts.length + 1 ≤ fuel) (q : Pos) (rest : List Token) :
    readElements fuel (ts ++ ⟨q, .closeBracket⟩ :: rest) = .ok (items, rest) := by
  obtain ⟨fuel, rfl⟩ := Nat.exists_eq_add_of_le' (Nat.le_of_add_left_le hfuel)
  cases h with
  | nil => rfl
  | element hd helements =>
    rename_i ts ts' d items
    obtain ⟨t, ts₀, rfl, ht⟩ := hd.starts
    simp only [List.length_cons, List.length_append] at hfuel
    have hdatum := readDatum_of_derives hd fuel (by simp only [List.length_cons]; omega)
      (ts' ++ ⟨q, .closeBracket⟩ :: rest)
    have hread := readElements_of_derives helements fuel (by omega) q rest
    rw [List.append_assoc, List.cons_append, readElements_element ht, ← List.cons_append, hdatum]
    simp only [Except.bind, hread]
  termination_by fuel

end

/-! ## What is read is derived -/

theorem bind_eq_ok_iff {ε α β : Type} {x} {f : α → Except ε β} {b : β} :
    (x >>= f) = .ok b ↔ ∃ a, x = .ok a ∧ f a = .ok b := by
  cases x <;> simp [bind, Except.bind]

/-- With this much fuel, whatever is read is derived. -/
structure ReadsDerived (fuel : Nat) : Prop where
  datum {ts rest : List Token} {d : Datum} : readDatum fuel ts = .ok (d, rest) →
    ∃ ts', ts = ts' ++ rest ∧ Derives ts' d
  items {notes notes' : List (String × Datum)} {ts rest : List Token} {items : List Datum} :
    readItems fuel notes ts = .ok (notes', items, rest) →
    ∃ ts' q given, ts = ts' ++ ⟨q, .closeParen⟩ :: rest ∧ DerivesItems ts' given items ∧
      notes' = mergeNotes notes given
  entries {ts rest : List Token} {entries : List (String × Datum)} :
    readEntries fuel ts = .ok (entries, rest) →
    ∃ ts' q, ts = ts' ++ ⟨q, .closeBrace⟩ :: rest ∧ DerivesEntries ts' entries
  elements {ts rest : List Token} {items : List Datum} :
    readElements fuel ts = .ok (items, rest) →
    ∃ ts' q, ts = ts' ++ ⟨q, .closeBracket⟩ :: rest ∧ DerivesElements ts' items

theorem ReadsDerived.succ {fuel : Nat} (ih : ReadsDerived fuel) : ReadsDerived (fuel + 1) where
  datum h := by
    unfold readDatum at h
    split at h
    · cases h; exact ⟨_, List.singleton_append.symm, .symbol ..⟩
    · cases h; exact ⟨_, List.singleton_append.symm, .string ..⟩
    · cases h; exact ⟨_, List.singleton_append.symm, .integer ..⟩
    · cases h; exact ⟨_, List.singleton_append.symm, .ellipsis _⟩
    · rename_i p ts
      obtain ⟨⟨notes, items, rest'⟩, hread, h⟩ := bind_eq_ok_iff.1 h
      cases h
      obtain ⟨ts', q, given, rfl, hitems, hnotes⟩ := ih.items hread
      exact ⟨_, by simp, .list p q hitems (merged_iff.2 hnotes)⟩
    · rename_i p ts
      obtain ⟨⟨entries, rest'⟩, hread, h⟩ := bind_eq_ok_iff.1 h
      cases h
      obtain ⟨ts', q, rfl, hentries⟩ := ih.entries hread
      exact ⟨_, by simp, .map p q hentries⟩
    · rename_i p ts
      obtain ⟨⟨items, rest'⟩, hread, h⟩ := bind_eq_ok_iff.1 h
      cases h
      obtain ⟨ts', q, rfl, helements⟩ := ih.elements hread
      exact ⟨_, by simp, .array p q helements⟩
    · cases h
  items h := by
    unfold readItems at h
    split at h
    · cases h
    · cases h; exact ⟨[], _, [], rfl, .nil, rfl⟩
    · rename_i p p' ts
      obtain ⟨⟨entries, rest₁⟩, hread, hnext⟩ := bind_eq_ok_iff.1 h
      obtain ⟨ts₁, r, rfl, hentries⟩ := ih.entries hread
      obtain ⟨ts₂, q, given, rfl, hitems, rfl⟩ := ih.items hnext
      exact ⟨_, q, entries ++ given, by simp, .note p p' r hentries hitems,
        (mergeNotes_append _ entries given).symm⟩
    · cases h
    · obtain ⟨⟨d, rest₁⟩, hread, h⟩ := bind_eq_ok_iff.1 h
      obtain ⟨⟨notes₁, items₁, rest₂⟩, hread', h⟩ := bind_eq_ok_iff.1 h
      cases h
      obtain ⟨ts₁, rfl, hd⟩ := ih.datum hread
      obtain ⟨ts₂, q, given, rfl, hitems, rfl⟩ := ih.items hread'
      exact ⟨_, q, given, by simp, .item hd hitems, rfl⟩
  entries h := by
    unfold readEntries at h
    split at h
    · cases h
    · cases h; exact ⟨[], _, rfl, .nil⟩
    · rename_i p key q ts
      obtain ⟨⟨d, rest₁⟩, hread, hnext⟩ := bind_eq_ok_iff.1 h
      obtain ⟨ts₁, rfl, hd⟩ := ih.datum hread
      dsimp only at hnext
      split at hnext
      · rename_i r rest₂
        obtain ⟨⟨entries₁, rest₃⟩, hread', hlast⟩ := bind_eq_ok_iff.1 hnext
        cases hlast
        obtain ⟨ts₂, s, rfl, hentries⟩ := ih.entries hread'
        exact ⟨_, s, by simp, .entry p q r key hd hentries⟩
      · rename_i r rest₂
        cases hnext
        exact ⟨_, r, by simp, .last p q key hd⟩
      · cases hnext
    · cases h
    · cases h
  elements h := by
    unfold readElements at h
    split at h
    · cases h
    · cases h; exact ⟨[], _, rfl, .nil⟩
    · obtain ⟨⟨d, rest₁⟩, hread, h⟩ := bind_eq_ok_iff.1 h
      obtain ⟨⟨items₁, rest₂⟩, hread', h⟩ := bind_eq_ok_iff.1 h
      cases h
      obtain ⟨ts₁, rfl, hd⟩ := ih.datum hread
      obtain ⟨ts₂, q, rfl, helements⟩ := ih.elements hread'
      exact ⟨_, q, by simp, .element hd helements⟩

theorem readsDerived : ∀ fuel, ReadsDerived fuel
  | 0 => ⟨nofun, nofun, nofun, nofun⟩
  | fuel + 1 => (readsDerived fuel).succ

/-- A token sequence is read as a datum if and only if it derives it. -/
theorem readTokens_eq_ok {ts d} : readTokens ts = .ok d ↔ Derives ts d := by
  constructor
  · intro h
    unfold readTokens at h
    split at h
    · cases h
    · rename_i hread
      cases h
      obtain ⟨ts', hts, hd⟩ := (readsDerived _).datum hread
      rwa [hts, List.append_nil]
    · cases h
  · intro h
    have hread := readDatum_of_derives h (2 * ts.length + 1) (by omega) []
    rw [List.append_nil] at hread
    rw [readTokens, hread]

/-! ## Whole texts -/

/-- A scan holds a datum if it came to the end of its text and its tokens derive the datum. -/
theorem Scan.datum_eq_ok {s : Scan} {d} :
    s.datum = .ok d ↔ s.fault = none ∧ Derives s.tokens d := by
  rw [← readTokens_eq_ok]
  unfold Scan.datum
  cases readTokens s.tokens with
  | error stop => simp
  | ok d' =>
    cases s.fault with
    | some fault => simp
    | none => simp

/-- A text without NUL is cut to its end. -/
theorem Scan.ofText_eq {src : String} (hnul : '\x00' ∉ src.toList) :
    Scan.ofText src = Scan.ofChars .start src.toList := by
  have hall : src.toList.takeWhile (· != '\x00') = src.toList :=
    List.takeWhile_eq_self_iff.2 fun c hc => bne_iff_ne.2 fun heq => hnul (heq ▸ hc)
  rw [Scan.ofText, hall]

/-- A text without NUL is read as a datum if and only if all of it can be cut into tokens and the
tokens derive the datum. -/
theorem Datum.read_eq_ok_iff {src : String} (hnul : '\x00' ∉ src.toList) (d : Datum) :
    Datum.read src = .ok d ↔
      (Scan.ofChars .start src.toList).fault = none ∧
        Derives (Scan.ofChars .start src.toList).tokens d := by
  rw [Datum.read, Scan.ofText_eq hnul, Scan.datum_eq_ok]

/-- The key `a` is given twice: it keeps its first place and has its last value. -/
theorem Datum.read_eq_ok_iff_givenTwice :
    '\x00' ∉ "(^\x7ba: 1, b: 2\x7d f ^\x7ba: 3\x7d)".toList ∧
      Derives (Scan.ofChars .start "(^\x7ba: 1, b: 2\x7d f ^\x7ba: 3\x7d)".toList).tokens
        (.list ⟨1, 1⟩
          [("a", .atom ⟨1, 23⟩ [] .integer "3"), ("b", .atom ⟨1, 13⟩ [] .integer "2")]
          [.atom ⟨1, 16⟩ [] .symbol "f"]) :=
  ⟨by decide, ((Datum.read_eq_ok_iff (by decide) _).1 (by cbv)).2⟩

end TreeSema
