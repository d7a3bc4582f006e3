import TreeSema.Proofs.RoundTrip.Placeless
import TreeSema.Proofs.RoundTrip.Word

/-!
# Data are read as they were written

A datum is legible if its words are words, its strings hold no NUL and its metadata, which only a
list can have, has distinct keys. The written form of a legible datum is cut into tokens that derive
the datum again. Positions are lost on the way, so data are compared without them (`unplaced`).

* `Datum.read_render`: a legible datum is read as it was written.
* `Datum.read_inverts_render`: so it is, and whatever is read comes back from its own text.
* `Datum.legible_of_read`: whatever is read is legible.
-/
namespace TreeSema

open Text (Pos isBlank)

namespace Datum

/-! ## Legible data -/

mutual

/-- The datum can be written and is read as it was written. -/
def Legible : Datum → Prop
  | atom _ notes .symbol text => notes = [] ∧ IsSymbol text
  | atom _ notes .integer text => notes = [] ∧ IsInteger text
  | atom _ notes .string text => notes = [] ∧ '\x00' ∉ text.toList
  | atom _ notes .ellipsis _ => notes = []
  | list _ notes items => (notes.map Prod.fst).Nodup ∧ LegibleEntries notes ∧ LegibleAll items
  | array _ notes items => notes = [] ∧ LegibleAll items
  | map _ notes entries => notes = [] ∧ LegibleEntries entries
  | absent => False
  | unknown .. => False

def LegibleAll : List Datum → Prop
  | [] => True
  | d :: ds => Legible d ∧ LegibleAll ds

def LegibleEntries : List (String × Datum) → Prop
  | [] => True
  | (key, d) :: es => IsSymbol key ∧ Legible d ∧ LegibleEntries es

end

@[simp] theorem legibleAll_iff : ∀ ds : List Datum, LegibleAll ds ↔ ∀ d ∈ ds, d.Legible
  | [] => by simp [LegibleAll]
  | d :: ds => by simp [LegibleAll, legibleAll_iff ds]

@[simp] theorem legibleEntries_iff : ∀ es : List (String × Datum),
    LegibleEntries es ↔ ∀ e ∈ es, IsSymbol e.1 ∧ e.2.Legible
  | [] => by simp [LegibleEntries]
  | (key, d) :: es => by simp [LegibleEntries, legibleEntries_iff es, and_assoc]

@[simp] theorem renderItems_eq_map : ∀ ds : List Datum, renderItems ds = ds.map render
  | [] => rfl
  | d :: ds => by rw [renderItems, renderItems_eq_map ds, List.map_cons]

@[simp] theorem renderEntries_eq_map : ∀ es : List (String × Datum),
    renderEntries es = es.map fun e => e.1 ++ ": " ++ e.2.render
  | [] => rfl
  | (key, d) :: es => by rw [renderEntries, renderEntries_eq_map es, List.map_cons]

end Datum

/-! ## Cutting a written text -/

/-- Puts tokens in front. -/
def Scan.prepend (ts : List Token) (s : Scan) : Scan := { s with tokens := ts ++ s.tokens }

/-- In front of `r`, the text `w` is cut into tokens with the lexemes `xs`. -/
structure Cuts (xs : List Lexeme) (w r : List Char) : Prop where
  nul : '\x00' ∉ w
  scan (p : Pos) : ∃ ts q, ts.map Token.lexeme = xs ∧
    Scan.ofChars p (w ++ r) = (Scan.ofChars q r).prepend ts

namespace Cuts

variable {xs ys : List Lexeme} {w w' r : List Char}

theorem nil : Cuts [] [] r := ⟨by simp, fun p => ⟨[], p, rfl, rfl⟩⟩

/-- Two texts are cut one after the other. -/
theorem append (h : Cuts xs w (w' ++ r)) (h' : Cuts ys w' r) : Cuts (xs ++ ys) (w ++ w') r := by
  refine ⟨by simp [h.nul, h'.nul], fun p => ?_⟩
  obtain ⟨ts₁, q₁, rfl, hscan₁⟩ := h.scan p
  obtain ⟨ts₂, q₂, rfl, hscan₂⟩ := h'.scan q₁
  refine ⟨ts₁ ++ ts₂, q₂, List.map_append, ?_⟩
  rw [List.append_assoc, hscan₁, hscan₂]
  simp [Scan.prepend]

theorem lexeme {c : Char} {cs : List Char} {x} (hnul : '\x00' ∉ c :: cs)
    (h : munch c (cs ++ r) = .lexeme x cs.length) : Cuts [x] (c :: cs) r := by
  refine ⟨hnul, fun p => ⟨[⟨p, x⟩], p.after (c :: cs), rfl, ?_⟩⟩
  rw [List.cons_append, Scan.ofChars_cons, h]
  simp [Scan.push, Scan.prepend]

/-- White space is no token. -/
theorem blanks (h : ∀ c ∈ w, isBlank c = true) : Cuts [] w r := by
  induction w with
  | nil => exact .nil
  | cons c w ih =>
    obtain ⟨hc, hw⟩ := List.forall_mem_cons.1 h
    have hrest := ih hw
    have hnul : c ≠ '\x00' := by
      rintro rfl
      exact absurd hc (by decide)
    refine ⟨by simp [hrest.nul, hnul.symm], fun p => ?_⟩
    obtain ⟨ts, q, hts, hscan⟩ := hrest.scan (p.after [c])
    refine ⟨ts, q, hts, ?_⟩
    rw [List.cons_append, Scan.ofChars_cons, ← hscan]
    simp [munch, hc]

end Cuts

/-! ## Words and marks -/

theorem nul_not_mem_symbolRest (cs : List Char) : '\x00' ∉ symbolRest cs := by
  fun_induction symbolRest cs with
  | case1 cs ih => simp [ih]
  | case2 c cs _ hc ih =>
    simp only [List.mem_cons, not_or]
    refine ⟨?_, ih⟩
    rintro rfl
    exact absurd hc (by decide)
  | case3 => simp
  | case4 => simp

theorem IsSymbol.nul_not_mem {s : String} (hs : IsSymbol s) : '\x00' ∉ s.toList := by
  obtain ⟨c, cs, htext, hstart, -, hrest⟩ := isSymbol_iff.1 hs
  rw [htext, ← hrest]
  simp only [List.mem_cons, not_or]
  refine ⟨?_, nul_not_mem_symbolRest cs⟩
  rintro rfl
  exact absurd hstart (by decide)

theorem IsInteger.nul_not_mem {s : String} (hs : IsInteger s) : '\x00' ∉ s.toList := by
  obtain ⟨c, cs, htext, hnum, hall⟩ := isInteger_iff.1 hs
  rw [htext]
  simp only [List.mem_cons, not_or]
  refine ⟨?_, fun h => absurd (List.all_eq_true.1 hall _ h) (by decide)⟩
  rintro rfl
  have hnot : startsNumber '\x00' cs = false := by
    simp only [startsNumber, Bool.or_eq_false_iff, Bool.and_eq_false_imp]
    exact ⟨by decide, fun h => absurd h (by decide)⟩
  simp [hnot] at hnum

namespace Cuts

variable {r : List Char}

theorem symbol {s : String} (hs : IsSymbol s) (hr : Breaks r) :
    Cuts [.symbol s] s.toList r := by
  obtain ⟨c, cs, htext, -⟩ := isSymbol_iff.1 hs
  have hnul := hs.nul_not_mem
  rw [htext] at hnul ⊢
  exact .lexeme hnul (munch_symbol hs htext hr)

theorem integer {s : String} (hs : IsInteger s) (hr : Breaks r) :
    Cuts [.integer s] s.toList r := by
  obtain ⟨c, cs, htext, -⟩ := isInteger_iff.1 hs
  have hnul := hs.nul_not_mem
  rw [htext] at hnul ⊢
  exact .lexeme hnul (munch_integer hs htext hr)

theorem quoted {text : String} (hnul : '\x00' ∉ text.toList) :
    Cuts [.string text] ("\"" ++ Datum.escape text ++ "\"").toList r := by
  have hescape : '\x00' ∉ (Datum.escape text).toList := by
    rw [toList_escape, List.mem_flatMap]
    rintro ⟨c, hc, hmem⟩
    have heq : '\x00' = c := by
      unfold escaped at hmem
      split at hmem
      · simpa using hmem
      · simpa using hmem
    exact hnul (heq ▸ hc)
  have htext : ("\"" ++ Datum.escape text ++ "\"").toList =
      '"' :: ((Datum.escape text).toList ++ ['"']) := by simp
  rw [htext]
  refine .lexeme (by simp [hescape]) ?_
  rw [List.append_assoc, List.singleton_append, munch_quoted]
  simp

/-- A mark that is a token by itself. -/
theorem mark (c : Char) {x} (hc : c ≠ '\x00') (h : munch c r = .lexeme x 0) : Cuts [x] [c] r :=
  .lexeme (by simpa using hc.symm) h

/-- A text between two marks. -/
theorem enclosed {xs} {w : List Char} {a b : Char} {x y} (ha : a ≠ '\x00') (hb : b ≠ '\x00')
    (hx : munch a (w ++ b :: r) = .lexeme x 0) (hy : munch b r = .lexeme y 0)
    (h : Cuts xs w (b :: r)) : Cuts (x :: (xs ++ [y])) (a :: (w ++ [b])) r := by
  have hclose := append (show Cuts xs w ([b] ++ r) from h) (mark b hb hy)
  have hopen : Cuts [x] [a] ((w ++ [b]) ++ r) :=
    mark a ha (by rwa [List.append_assoc, List.singleton_append])
  exact hopen.append hclose

theorem parens {xs : List Lexeme} {w : List Char} (h : Cuts xs w (')' :: r)) :
    Cuts (.openParen :: (xs ++ [.closeParen])) ('(' :: (w ++ [')'])) r :=
  enclosed (by decide) (by decide) rfl rfl h

theorem braces {xs} {w : List Char} (h : Cuts xs w ('\x7d' :: r)) :
    Cuts (.openBrace :: (xs ++ [.closeBrace])) ('\x7b' :: (w ++ ['\x7d'])) r :=
  enclosed (by decide) (by decide) rfl rfl h

theorem brackets {xs : List Lexeme} {w : List Char} (h : Cuts xs w (']' :: r)) :
    Cuts (.openBracket :: (xs ++ [.closeBracket])) ('[' :: (w ++ [']'])) r :=
  enclosed (by decide) (by decide) rfl rfl h

end Cuts

/-! ## Items -/

theorem intercalate_cons {α : Type} (sep w : List α) (ws : List (List α)) :
    sep.intercalate (w :: ws) = w ++ ws.flatMap (sep ++ ·) := by
  induction ws generalizing w with
  | nil => simp
  | cons w' ws ih => simp [List.intercalate_cons_cons, ih]

theorem breaks_blank {c : Char} (hc : isBlank c = true) (r : List Char) : Breaks (c :: r) := by
  refine breaks_cons r ?_ ?_
  · cases hcont : continuesSymbol c with
    | false => rfl
    | true =>
      rw [continuesSymbol, Text.not_isDigit_of_isBlank hc, Bool.or_false] at hcont
      rw [not_blank_of_startsSymbol hcont] at hc
      cases hc
  · rintro rfl
    exact absurd hc (by decide)

theorem isBlank_of_mem_space : ∀ c ∈ [' '], isBlank c = true := by
  intro c hc
  rw [List.mem_singleton.1 hc]
  decide

namespace Datum

/-- Tokens with these lexemes, standing nowhere. -/
def nowhere (xs : List Lexeme) : List Token := xs.map (Token.mk .nowhere)

/-- The lexemes are those of something that tokens derive, and in front of any text that breaks
words the text is cut into them. -/
def WrittenAs (derived : List Token → Prop) (w : List Char) : Prop :=
  ∃ xs, derived (nowhere xs) ∧ ∀ r, Breaks r → Cuts xs w r

/-- The written form of the datum is cut into tokens that derive it. -/
def Written (d : Datum) : Prop := WrittenAs (Derives · d.unplaced) d.render.toList

/-- Texts one after the other, each after white space. -/
def spaced (sep : List Char) (ds : List Datum) : List Char :=
  ds.flatMap fun d => sep ++ d.render.toList

section Spaced

variable {sep : List Char} {ds : List Datum} {P : List Token → List Datum → Prop} (hnil : P [] [])
  (hcons : ∀ {d ds ts ts'}, Derives ts d → P ts' ds → P (ts ++ ts') (d :: ds))

theorem breaks_spaced (ds : List Datum) (hsep : ∀ c ∈ sep, isBlank c = true) (hne : sep ≠ [])
    {r : List Char} (hr : Breaks r) : Breaks (spaced sep ds ++ r) := by
  cases ds with
  | nil => exact hr
  | cons d ds =>
    obtain ⟨c, cs, rfl⟩ := List.exists_cons_of_ne_nil hne
    simp only [spaced, List.flatMap_cons, List.cons_append]
    exact breaks_blank (hsep c (by simp)) _

include hnil hcons

/-- Items are cut one by one: `P` is what is derived from the tokens of items. -/
theorem written_spaced (hsep : ∀ c ∈ sep, isBlank c = true) (hne : sep ≠ [])
    (h : ∀ d ∈ ds, d.Written) : WrittenAs (P · (unplacedAll ds)) (spaced sep ds) := by
  induction ds with
  | nil => exact ⟨[], hnil, fun _ _ => .nil⟩
  | cons d ds ih =>
    obtain ⟨⟨xs, hd, hcut⟩, hds⟩ := List.forall_mem_cons.1 h
    obtain ⟨ys, hys, hrest⟩ := ih hds
    refine ⟨xs ++ ys, ?_, fun r hr => ?_⟩
    · rw [nowhere, List.map_append]
      exact hcons hd hys
    · rw [show spaced sep (d :: ds) = sep ++ (d.render.toList ++ spaced sep ds) by simp [spaced]]
      exact (Cuts.blanks hsep).append
        ((hcut _ (breaks_spaced ds hsep hne hr)).append (hrest r hr))

/-- The first of the items has no white space before it. -/
theorem written_intercalate (h : ∀ d ∈ ds, d.Written) :
    WrittenAs (P · (unplacedAll ds)) (" ".intercalate (ds.map render)).toList := by
  cases ds with
  | nil => exact ⟨[], hnil, fun _ _ => .nil⟩
  | cons d ds =>
    obtain ⟨⟨xs, hd, hcut⟩, hds⟩ := List.forall_mem_cons.1 h
    obtain ⟨ys, hys, hrest⟩ := written_spaced hnil hcons isBlank_of_mem_space (by simp) hds
    have htext : (" ".intercalate ((d :: ds).map render)).toList =
        d.render.toList ++ spaced [' '] ds := by
      rw [String.toList_intercalate, List.map_cons, List.map_cons, intercalate_cons]
      simp [spaced, List.flatMap_map]
    rw [htext]
    refine ⟨xs ++ ys, ?_, fun r hr => ?_⟩
    · rw [nowhere, List.map_append]
      exact hcons hd hys
    · exact (hcut _ (breaks_spaced ds isBlank_of_mem_space (by simp) hr)).append (hrest r hr)

end Spaced

/-! ## Entries and metadata -/

section Entries

variable {es : List (String × Datum)} {ds : List Datum}

theorem cuts_entry {key : String} {d : Datum} {xs} {r : List Char} (hkey : IsSymbol key)
    (hd : Cuts xs d.render.toList r) :
    Cuts (.symbol key :: .colon :: xs) (key ++ ": " ++ d.render).toList r := by
  have hcolon : Cuts [.colon] [':'] ([' '] ++ d.render.toList ++ r) := .mark _ (by decide) rfl
  rw [show (key ++ ": " ++ d.render).toList = key.toList ++ ([':'] ++ ([' '] ++ d.render.toList)) by
    simp]
  exact (Cuts.symbol hkey (breaks_colon _)).append
    (hcolon.append ((Cuts.blanks isBlank_of_mem_space).append hd))

theorem written_entries (h : ∀ e ∈ es, IsSymbol e.1 ∧ e.2.Written) :
    WrittenAs (DerivesEntries · (unplacedEntries es))
      (", ".intercalate (es.map fun e => e.1 ++ ": " ++ e.2.render)).toList := by
  induction es with
  | nil => exact ⟨[], .nil, fun _ _ => .nil⟩
  | cons e es ih =>
    obtain ⟨⟨hkey, xs, hd, hcut⟩, hes⟩ := List.forall_mem_cons.1 h
    cases es with
    | nil =>
      exact ⟨.symbol e.1 :: .colon :: xs, .last _ _ e.1 hd, fun r hr => cuts_entry hkey (hcut r hr)⟩
    | cons e' es =>
      obtain ⟨ys, hys, hrest⟩ := ih hes
      refine ⟨.symbol e.1 :: .colon :: (xs ++ .comma :: ys), ?_, fun r hr => ?_⟩
      · have hentry := DerivesEntries.entry .nowhere .nowhere .nowhere e.1 hd hys
        simpa [nowhere] using hentry
      · rw [show (", ".intercalate ((e :: e' :: es).map fun e => e.1 ++ ": " ++ e.2.render)).toList =
            (e.1 ++ ": " ++ e.2.render).toList ++ ([','] ++ ([' '] ++
              (", ".intercalate ((e' :: es).map fun e => e.1 ++ ": " ++ e.2.render)).toList)) by
          simp [String.toList_intercalate]]
        have hnext := (Cuts.blanks isBlank_of_mem_space).append (hrest r hr)
        exact (cuts_entry hkey (hcut _ (breaks_cons _ (by decide) (by decide)))).append
          ((Cuts.mark (x := .comma) ',' (by decide) rfl).append hnext)

/-- The written metadata of a list. -/
def noteText (es : List (String × Datum)) : String :=
  "^\x7b" ++ ", ".intercalate (es.map fun e => e.1 ++ ": " ++ e.2.render) ++ "\x7d"

theorem written_noted (h : ∀ e ∈ es, IsSymbol e.1 ∧ e.2.Written) (hds : ∀ d ∈ ds, d.Written) :
    WrittenAs (DerivesItems · (unplacedEntries es) (unplacedAll ds))
      ((noteText es).toList ++ spaced [' '] ds) := by
  obtain ⟨xs, hxs, hentries⟩ := written_entries h
  obtain ⟨ys, hys, hitems⟩ := written_spaced (P := (DerivesItems · [] ·)) .nil .item
    isBlank_of_mem_space (by simp) hds
  refine ⟨.caret :: .openBrace :: (xs ++ .closeBrace :: ys), ?_, fun r hr => ?_⟩
  · have hnote := DerivesItems.note .nowhere .nowhere .nowhere hxs hys
    simpa [nowhere] using hnote
  · have hmap := Cuts.braces (hentries ('\x7d' :: (spaced [' '] ds ++ r))
      (breaks_cons _ (by decide) (by decide)))
    have hnote := (Cuts.mark (x := .caret) '^' (by decide) rfl).append hmap
    rw [show (noteText es).toList = ['^'] ++ ('\x7b' ::
        ((", ".intercalate (es.map fun e => e.1 ++ ": " ++ e.2.render)).toList ++ ['\x7d'])) by
      simp [noteText]]
    simpa using hnote.append (hitems r hr)

/-- What a list is written with between its parentheses. -/
def listText (notes : List (String × Datum)) (items : List Datum) : String :=
  " ".intercalate
    (placeNotes (renderEntries notes) ((Datum.list .nowhere [] items).head != "")
      (renderItems items))

theorem written_listText (h : ∀ e ∈ es, IsSymbol e.1 ∧ e.2.Written) (hds : ∀ d ∈ ds, d.Written) :
    WrittenAs (DerivesItems · (unplacedEntries es) (unplacedAll ds)) (listText es ds).toList := by
  cases es with
  | nil =>
    rw [show listText [] ds = " ".intercalate (ds.map render) by
      rw [listText, renderItems_eq_map]; rfl]
    exact written_intercalate (P := (DerivesItems · [] ·)) .nil .item hds
  | cons e es =>
    have hplace : ∀ b items, placeNotes (renderEntries (e :: es)) b items =
        items.take (if b then 1 else 0) ++ noteText (e :: es) ::
          items.drop (if b then 1 else 0) := by
      intro b items
      rw [placeNotes, renderEntries_eq_map]
      rfl
    rw [listText, hplace, renderItems_eq_map]
    split
    · -- the metadata stands after the leading symbol, so there is one
      rename_i hhead
      cases ds with
      | nil => cases hhead
      | cons d ds =>
        obtain ⟨⟨xs, hd, hcut⟩, hds⟩ := List.forall_mem_cons.1 hds
        obtain ⟨ys, hys, hrest⟩ := written_noted h hds
        have htext : (" ".intercalate ((List.map render (d :: ds)).take 1 ++ noteText (e :: es) ::
            (List.map render (d :: ds)).drop 1)).toList =
            d.render.toList ++ ([' '] ++ ((noteText (e :: es)).toList ++ spaced [' '] ds)) := by
          simp only [List.map_cons, List.take_succ_cons, List.take_zero, List.drop_succ_cons,
            List.drop_zero, List.cons_append, List.nil_append, String.toList_intercalate,
            intercalate_cons, List.flatMap_cons]
          simp [spaced, List.flatMap_map]
        rw [htext]
        refine ⟨xs ++ ys, ?_, fun r hr => ?_⟩
        · rw [nowhere, List.map_append]
          exact .item hd hys
        · exact (hcut _ (breaks_blank (by decide) _)).append
            ((Cuts.blanks isBlank_of_mem_space).append (hrest r hr))
    · have htext : (" ".intercalate ((List.map render ds).take 0 ++ noteText (e :: es) ::
          (List.map render ds).drop 0)).toList =
          (noteText (e :: es)).toList ++ spaced [' '] ds := by
        simp only [List.take_zero, List.drop_zero, List.nil_append, String.toList_intercalate,
          List.map_cons, intercalate_cons]
        simp [spaced, List.flatMap_map]
      rw [htext]
      exact written_noted h hds

end Entries

theorem toList_render_list (p : Pos) (notes : List (String × Datum)) (items : List Datum) :
    (Datum.list p notes items).render.toList = '(' :: ((listText notes items).toList ++ [')']) := by
  have hrender : (Datum.list p notes items).render = "(" ++ listText notes items ++ ")" := rfl
  simp [hrender]

theorem toList_render_array (p : Pos) (notes : List (String × Datum)) (items : List Datum) :
    (Datum.array p notes items).render.toList =
      '[' :: ((" ".intercalate (items.map render)).toList ++ [']']) := by
  have hrender : (Datum.array p notes items).render =
    "[" ++ " ".intercalate (renderItems items) ++ "]" := rfl
  simp [hrender]

theorem toList_render_map (p : Pos) (notes entries : List (String × Datum)) :
    (Datum.map p notes entries).render.toList = '\x7b' ::
      ((", ".intercalate (entries.map fun e => e.1 ++ ": " ++ e.2.render)).toList ++ ['\x7d']) := by
  have hrender : (Datum.map p notes entries).render =
    "\x7b" ++ ", ".intercalate (renderEntries entries) ++ "\x7d" := rfl
  simp [hrender]

/-! ## Whole data -/

mutual

theorem written_of_legible : ∀ {d : Datum}, d.Legible → d.Written
  | .atom p notes .symbol text, h => by
    obtain ⟨rfl, hs⟩ := h
    exact ⟨[.symbol text], .symbol _ text, fun r hr => .symbol hs hr⟩
  | .atom p notes .integer text, h => by
    obtain ⟨rfl, hs⟩ := h
    exact ⟨[.integer text], .integer _ text, fun r hr => .integer hs hr⟩
  | .atom p notes .string text, h => by
    obtain ⟨rfl, hs⟩ := h
    exact ⟨[.string text], .string _ text, fun r _ => .quoted hs⟩
  | .atom p notes .ellipsis text, h => by
    cases h
    have hrender : (Datum.atom p [] .ellipsis text).render.toList = ['.', '.', '.'] := by
      change "...".toList = _
      decide
    refine ⟨[.ellipsis], .ellipsis _, fun r _ => ?_⟩
    rw [hrender]
    exact .lexeme (by decide) rfl
  | .list p notes items, h => by
    obtain ⟨hkeys, hnotes, hitems⟩ := h
    obtain ⟨xs, hxs, hcut⟩ := written_listText (writtenEntries_of_legible hnotes)
      (writtenAll_of_legible hitems)
    have hmerged : Merged (unplacedEntries notes) (unplacedEntries notes) :=
      merged_of_nodup (by simpa [Function.comp_def] using hkeys)
    refine ⟨.openParen :: (xs ++ [.closeParen]), ?_, fun r hr => ?_⟩
    · have hlist := Derives.list .nowhere .nowhere hxs hmerged
      simpa [nowhere, unplaced] using hlist
    · rw [toList_render_list]
      exact .parens (hcut _ (breaks_cons _ (by decide) (by decide)))
  | .array p notes items, h => by
    obtain ⟨rfl, hitems⟩ := h
    obtain ⟨xs, hxs, hcut⟩ := written_intercalate (P := DerivesElements) .nil .element
      (writtenAll_of_legible hitems)
    refine ⟨.openBracket :: (xs ++ [.closeBracket]), ?_, fun r hr => ?_⟩
    · have harray := Derives.array .nowhere .nowhere hxs
      simpa [nowhere, unplaced] using harray
    · rw [toList_render_array]
      exact .brackets (hcut _ (breaks_cons _ (by decide) (by decide)))
  | .map p notes entries, h => by
    obtain ⟨rfl, hentries⟩ := h
    obtain ⟨xs, hxs, hcut⟩ := written_entries (writtenEntries_of_legible hentries)
    refine ⟨.openBrace :: (xs ++ [.closeBrace]), ?_, fun r hr => ?_⟩
    · have hmap := Derives.map .nowhere .nowhere hxs
      simpa [nowhere, unplaced] using hmap
    · rw [toList_render_map]
      exact .braces (hcut _ (breaks_cons _ (by decide) (by decide)))
  | .absent, h => h.elim
  | .unknown .., h => h.elim

theorem writtenAll_of_legible : ∀ {ds : List Datum}, LegibleAll ds → ∀ d ∈ ds, d.Written
  | [], _ => by simp
  | d :: ds, h => List.forall_mem_cons.2 ⟨written_of_legible h.1, writtenAll_of_legible h.2⟩

theorem writtenEntries_of_legible : ∀ {es : List (String × Datum)}, LegibleEntries es →
    ∀ e ∈ es, IsSymbol e.1 ∧ e.2.Written
  | [], _ => by simp
  | (key, d) :: es, h =>
    List.forall_mem_cons.2 ⟨⟨h.1, written_of_legible h.2.1⟩, writtenEntries_of_legible h.2.2⟩

end

/-- A text that is cut into tokens of a datum is read as that datum. -/
theorem read_of_cuts {text : String} {d : Datum} {xs} (hd : Derives (nowhere xs) d.unplaced)
    (h : Cuts xs text.toList []) : ∃ d', Datum.read text = .ok d' ∧ d'.unplaced = d.unplaced := by
  obtain ⟨ts, q, rfl, hscan⟩ := h.scan .start
  rw [List.append_nil, Scan.ofChars_nil] at hscan
  have hplaces : nowhere (ts.map Token.lexeme) = ts.map Token.placeless := List.map_map
  rw [hplaces, ← readTokens_eq_ok, readTokens_placeless] at hd
  cases hread : readTokens ts with
  | error stop =>
    rw [hread] at hd
    cases hd
  | ok d' =>
    rw [hread] at hd
    have hderives := readTokens_eq_ok.1 hread
    refine ⟨d', ?_, (placeless_of_derives hderives).symm.trans (Except.ok.inj hd)⟩
    rw [Datum.read, Scan.ofText_eq h.nul, hscan, Scan.datum_eq_ok]
    exact ⟨rfl, by simpa [Scan.prepend] using hderives⟩

/-- A legible datum is read as it was written. -/
theorem read_render {d : Datum} (h : d.Legible) :
    ∃ d', Datum.read d.render = .ok d' ∧ d'.unplaced = d.unplaced := by
  obtain ⟨xs, hd, hcut⟩ := written_of_legible h
  exact read_of_cuts hd (hcut [] breaks_nil)

/-- It does not matter how much white space stands before the items of a list. -/
theorem read_spaced {word : String} {sep : List Char} {ds : List Datum} (hword : IsSymbol word)
    (hsep : ∀ c ∈ sep, isBlank c = true) (hne : sep ≠ []) (h : ∀ d ∈ ds, d.Legible) :
    ∃ d', Datum.read (String.ofList ('(' :: (word.toList ++ spaced sep ds ++ [')']))) = .ok d' ∧
      d'.unplaced = ofItems (symbol word :: ds.map unplaced) := by
  have hparen : Breaks [')'] := by decide
  obtain ⟨xs, hxs, hcut⟩ := written_spaced (P := (DerivesItems · [] ·)) .nil .item hsep hne
    fun d hd => written_of_legible (h d hd)
  have hlist := Derives.list .nowhere .nowhere (.item (.symbol .nowhere word) hxs)
    (merged_of_nodup List.nodup_nil)
  have hd : Derives (nowhere (.openParen :: (.symbol word :: xs ++ [.closeParen])))
      (ofItems (symbol word :: ds)).unplaced := by
    simpa [nowhere, ofItems, symbol, unplaced] using hlist
  rw [show ofItems (symbol word :: ds.map unplaced) = (ofItems (symbol word :: ds)).unplaced by
    simp [ofItems, symbol, unplaced]]
  refine read_of_cuts hd ?_
  rw [String.toList_ofList]
  exact .parens ((Cuts.symbol hword (breaks_spaced ds hsep hne hparen)).append (hcut [')'] hparen))

/-! ## What is read is legible -/

theorem legible_of_derives {ts} {d : Datum} (hd : Derives ts d) (h : ∀ t ∈ ts, t.lexeme.Proper) :
    d.Legible := by
  induction d using induction_on_children generalizing ts with
  | step d ih =>
    have hchild : ∀ c ∈ d.children, c.Legible := by
      intro c hc
      obtain ⟨ts', hts', hderives⟩ := hd.child hc
      exact ih c hc hderives fun t ht => h t (hts'.subset ht)
    have hkey : ∀ key ∈ d.keys ++ d.notes.map Prod.fst, IsSymbol key := by
      intro key hkey
      obtain ⟨p, hp⟩ := hd.key hkey
      exact h _ hp
    cases hd with
    | symbol | string | integer => exact ⟨rfl, h _ (.head _)⟩
    | ellipsis => rfl
    | list p q hitems hmerged =>
      refine ⟨hmerged.nodup, (legibleEntries_iff _).2 fun e he => ⟨?_, ?_⟩, (legibleAll_iff _).2
        fun c hc => hchild c (mem_children_of_content hc)⟩
      · exact hkey _ (List.mem_map_of_mem he)
      · exact hchild _ (mem_children_of_note he)
    | map =>
      refine ⟨rfl, (legibleEntries_iff _).2 fun e he => ⟨?_, ?_⟩⟩
      · exact hkey _ (List.mem_append_left _ (List.mem_map_of_mem he))
      · exact hchild _ (mem_children_of_content (List.mem_map_of_mem he))
    | array =>
      exact ⟨rfl, (legibleAll_iff _).2 fun c hc => hchild c (mem_children_of_content hc)⟩

/-- Whatever is read is legible. -/
theorem legible_of_read {src : String} {d : Datum} (h : Datum.read src = .ok d) : d.Legible :=
  legible_of_derives (Scan.datum_eq_ok.1 h).2 (proper_of_mem_ofText src)

theorem placeless_of_read {src : String} {d : Datum} (h : Datum.read src = .ok d) :
    d.placeless = d.unplaced :=
  placeless_of_derives (Scan.datum_eq_ok.1 h).2

/-- A list with metadata, one key of which ends in a doubled colon, and a map with a repeated key:

    (f ^{k::: [+5 ...], b: "\\\""} {-: 1, -: -2})
-/
def sampleDatum : Datum :=
  .list .nowhere
    [("k::", .array .nowhere [] [integer "+5", .atom .nowhere [] .ellipsis ""]),
     ("b", str "\\\"")]
    [symbol "f", ofEntries [("-", integer "1"), ("-", integer "-2")]]

theorem sampleDatum_legible : sampleDatum.Legible := by
  have hwords : IsSymbol "k::" ∧ IsSymbol "b" ∧ IsSymbol "f" ∧ IsSymbol "-" := by decide
  have hnumbers : IsInteger "+5" ∧ IsInteger "1" ∧ IsInteger "-2" := by decide
  simp [sampleDatum, Legible, LegibleAll, LegibleEntries, symbol, integer, str, ofEntries, hwords,
    hnumbers]

end Datum

end TreeSema
