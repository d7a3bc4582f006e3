import TreeSema.Proofs.RoundTrip.Datum

/-!
# Layout

White space and comments may stand between tokens, and two texts that differ in nothing else are
read alike. There are two halves to this. The scan finds the same lexemes in both, since a token is
cut off at the layout that follows it. And the reader looks at lexemes only
(`readTokens_placeless`).

* `munch_append`: a token in front of layout is the token it is by itself.
* `LaidOut.scan`: a text is cut into the lexemes of the words it is laid out from.
* `Datum.read_laidOut`: texts laid out from the same words are read alike.
-/
namespace TreeSema

open Text (Pos isBlank isDigit)

/-! ## Texts laid out from words -/

/-- White space and comments, each with the newline that ends it. -/
inductive IsLayout : List Char → Prop
  | nil : IsLayout []
  | blank {c l} (hc : isBlank c = true) (hl : IsLayout l) : IsLayout (c :: l)
  | comment {text l} (htext : '\n' ∉ text) (hl : IsLayout l) :
      IsLayout (';' :: (text ++ '\n' :: l))

/-- The words stand one after the other, layout behind each of them, and some between any two. -/
inductive Spread : List String → List Char → Prop
  | nil : Spread [] []
  | cons {w : String} {ws gap cs} (hgap : IsLayout gap)
      (hsome : ws ≠ [] → gap ≠ []) (hcs : Spread ws cs) : Spread (w :: ws) (w.toList ++ (gap ++ cs))

/-- The text consists of the words with layout before, between and behind them. -/
def LaidOut (ws : List String) (src : String) : Prop :=
  ∃ lead body, IsLayout lead ∧ Spread ws body ∧ src.toList = lead ++ body

/-- The text is a token by itself. -/
def IsToken (w : String) : Prop := ∃ x : Lexeme, x.spelled w = true

/-! ## Tokens in front of layout -/

theorem quotedRest_append {cs text : List Char} {n : Nat} (h : quotedRest cs = .ok (text, n))
    (r : List Char) : quotedRest (cs ++ r) = .ok (text, n) := by
  have hrest := (quotedRest_take h).2 (cs.drop n ++ r)
  rwa [← List.append_assoc, List.take_append_drop] at hrest

/-- The text is empty, or it starts with a character that no word holds. -/
def Ends (r : List Char) : Prop := ∀ c ∈ r.head?, continuesSymbol c = false ∧ c ≠ ':'

theorem ends_nil : Ends [] := nofun

theorem ends_cons {c : Char} {r : List Char} (hc : continuesSymbol c = false) (hcolon : c ≠ ':') :
    Ends (c :: r) := by
  rintro _ ⟨⟩
  exact ⟨hc, hcolon⟩

theorem ends_blank {c : Char} (hc : isBlank c = true) (r : List Char) : Ends (c :: r) := by
  refine ends_cons (breaks_blank hc r).head ?_
  rintro rfl
  exact absurd hc (by decide)

theorem Ends.breaks {r : List Char} (h : Ends r) : Breaks r := by
  cases r with
  | nil => exact breaks_nil
  | cons c r => exact breaks_cons r (h c rfl).1 (h c rfl).2

theorem Ends.symbolRest_append {r : List Char} (h : Ends r) (cs : List Char) :
    symbolRest (cs ++ r) = symbolRest cs := by
  fun_induction symbolRest cs with
  | case1 cs ih => simp [symbolRest, ih]
  | case2 c cs hne hc ih =>
    rw [List.cons_append, symbolRest, if_pos hc, ih]
    rintro cs' rfl -
    exact absurd hc (by decide)
  | case3 c cs hne hc =>
    rw [List.cons_append, symbolRest, if_neg hc]
    rintro cs' rfl hcs
    cases cs with
    | nil =>
      obtain rfl : r = ':' :: cs' := hcs
      exact (h ':' rfl).2 rfl
    | cons d cs =>
      obtain ⟨rfl, -⟩ := List.cons.inj hcs
      exact hne cs rfl rfl
  | case4 => exact h.breaks

theorem Ends.takeWhile_isDigit {r : List Char} (h : Ends r) (cs : List Char) :
    (cs ++ r).takeWhile isDigit = cs.takeWhile isDigit := by
  have hstop : r.takeWhile isDigit = [] := by
    cases r with
    | nil => rfl
    | cons d r => exact List.takeWhile_cons_of_neg (by simpa using h.breaks.not_digit)
  rw [List.takeWhile_append]
  split
  · rename_i hall
    rw [hstop, List.append_nil, (List.takeWhile_prefix _).eq_of_length hall]
  · rfl

/-- A token is the same in front of text that ends a word. -/
theorem munch_append {c : Char} {cs r : List Char} {x} {n : Nat} (h : munch c cs = .lexeme x n)
    (hr : Ends r) : munch c (cs ++ r) = .lexeme x n := by
  have hnum : startsNumber c (cs ++ r) = startsNumber c cs :=
    startsNumber_append hr.breaks.not_digit
  cases x with
  | symbol s => rwa [munch_eq_symbol, hnum, hr.symbolRest_append, ← munch_eq_symbol]
  | integer s => rwa [munch_eq_integer, hnum, hr.takeWhile_isDigit, ← munch_eq_integer]
  | string s =>
    obtain ⟨rfl, text, hquoted, hs⟩ := munch_eq_string.1 h
    exact munch_eq_string.2 ⟨rfl, text, quotedRest_append hquoted r, hs⟩
  | _ =>
    -- the other tokens are marks, which are found by their own characters
    unfold munch at h
    repeat' split at h
    all_goals cases h
    all_goals rfl

/-! ## Cutting a text that is laid out -/

theorem IsLayout.cuts {l r : List Char} (h : IsLayout l) (hnul : '\x00' ∉ l) :
    Cuts [] l r := by
  refine ⟨hnul, fun p => ⟨[], p.after l, rfl, ?_⟩⟩
  induction h generalizing p with
  | nil => rfl
  | @blank c l hc hl ih =>
    have hskip : munch c (l ++ r) = .skip 0 := by simp [munch, hc]
    rw [List.cons_append, Scan.ofChars_cons, hskip]
    exact ih (fun hmem => hnul (List.mem_cons_of_mem c hmem)) _
  | @comment text l htext hl ih =>
    -- the comment up to its newline, then the newline
    have hplain : ∀ c ∈ text, (c != '\n') = true := fun c hc =>
      bne_iff_ne.2 fun heq => htext (heq ▸ hc)
    have hline : (text ++ '\n' :: (l ++ r)).takeWhile (· != '\n') = text := by
      rw [List.takeWhile_append_of_pos hplain]
      simp
    have hskip : munch ';' (text ++ '\n' :: (l ++ r)) = .skip text.length := by
      have hb : isBlank ';' = false := by decide
      simp [munch, hb, hline]
    have hnewline : munch '\n' (l ++ r) = .skip 0 := rfl
    rw [List.cons_append, List.append_assoc, List.cons_append, Scan.ofChars_cons, hskip]
    simp only [List.take_left, List.drop_left]
    rw [Scan.ofChars_cons, hnewline]
    have hplace : p.after (';' :: (text ++ '\n' :: l)) =
        ((p.after (';' :: text)).after ['\n']).after l := by simp [Pos.after_append]
    rw [hplace]
    exact ih (fun hmem => hnul (by simp [hmem])) _

theorem IsLayout.ends {l : List Char} (h : IsLayout l) (hne : l ≠ []) (r : List Char) :
    Ends (l ++ r) := by
  cases h with
  | nil => exact absurd rfl hne
  | blank hc => exact ends_blank hc _
  | comment => exact ends_cons (by decide) (by decide)

theorem Spread.cuts {ws : List String} {xs} {cs : List Char} (h : Spread ws cs)
    (hwords : List.Forall₂ (fun w x => Lexeme.spelled x w = true) ws xs) (hnul : '\x00' ∉ cs) :
    Cuts xs cs [] := by
  induction h generalizing xs with
  | nil =>
    cases hwords
    exact .nil
  | @cons w ws gap cs hgap hsome hcs ih =>
    cases hwords with
    | @cons _ x _ xs hw hws =>
      simp only [List.mem_append, not_or] at hnul
      obtain ⟨hw', hgap', hcs'⟩ := hnul
      obtain ⟨c, w', htext, hmunch⟩ := spelled_iff.1 hw
      have hends : Ends (gap ++ cs) := by
        by_cases hne : gap = []
        · obtain rfl : ws = [] := by_contra fun hws => hsome hws hne
          cases hcs
          rw [hne]
          exact ends_nil
        · exact hgap.ends hne cs
      have hword : Cuts [x] w.toList (gap ++ cs ++ []) := by
        rw [htext] at hw' ⊢
        exact .lexeme hw' (munch_append hmunch (by rwa [List.append_nil]))
      exact hword.append ((hgap.cuts hgap').append (ih hws hcs'))

/-- A text is cut into the lexemes of the words it is laid out from. -/
theorem LaidOut.scan {ws : List String} {xs} {src : String} (h : LaidOut ws src)
    (hwords : List.Forall₂ (fun w x => Lexeme.spelled x w = true) ws xs)
    (hnul : '\x00' ∉ src.toList) :
    (Scan.ofText src).fault = none ∧ (Scan.ofText src).tokens.map Token.lexeme = xs := by
  obtain ⟨lead, body, hlead, hbody, htext⟩ := h
  rw [Scan.ofText_eq hnul, htext]
  rw [htext, List.mem_append, not_or] at hnul
  obtain ⟨ts, q, hts, hscan⟩ :=
    ((hlead.cuts hnul.1).append (hbody.cuts hwords hnul.2)).scan .start
  rw [List.append_nil, Scan.ofChars_nil] at hscan
  rw [hscan]
  exact ⟨rfl, by simpa [Scan.prepend] using hts⟩

/-! ## Whole texts -/

/-- What the reader says of tokens that were cut to the end of the text. -/
def verdict : Except Stop Datum → Except SyntaxFault Datum
  | .error s => .error (.unwelcome s.wanted (s.rest.head?.map Token.lexeme))
  | .ok d => .ok d

theorem Scan.datum_placeless {s : Scan} (hfault : s.fault = none) :
    (s.datum.map Datum.placeless).mapError ReadError.fault =
      verdict (readTokens (s.tokens.map Token.placeless)) := by
  rw [readTokens_placeless]
  unfold Scan.datum
  cases readTokens s.tokens with
  | error stop =>
    obtain ⟨wanted, rest⟩ := stop
    simp only [Scan.errorAt, hfault]
    cases rest <;> rfl
  | ok d =>
    simp only [hfault]
    rfl

theorem exists_spelled {words : List String} (h : ∀ w ∈ words, IsToken w) :
    ∃ xs, List.Forall₂ (fun w x => Lexeme.spelled x w = true) words xs := by
  induction words with
  | nil => exact ⟨[], .nil⟩
  | cons w words ih =>
    obtain ⟨⟨x, hx⟩, hwords⟩ := List.forall_mem_cons.1 h
    obtain ⟨xs, hxs⟩ := ih hwords
    exact ⟨x :: xs, .cons hx hxs⟩

/-- Two texts laid out from the same tokens are read as the same datum, up to positions, or both are
refused, for the same reason. -/
theorem Datum.read_laidOut {words : List String} {src src' : String}
    (hwords : ∀ w ∈ words, IsToken w) (h : LaidOut words src) (h' : LaidOut words src')
    (hnul : '\x00' ∉ src.toList) (hnul' : '\x00' ∉ src'.toList) :
    ((Datum.read src).map Datum.placeless).mapError ReadError.fault =
      ((Datum.read src').map Datum.placeless).mapError ReadError.fault := by
  obtain ⟨xs, hxs⟩ := exists_spelled hwords
  have hscan : ∀ {src : String}, LaidOut words src → '\x00' ∉ src.toList →
      ((Datum.read src).map Datum.placeless).mapError ReadError.fault =
        verdict (readTokens (xs.map (Token.mk .nowhere))) := by
    intro src h hnul
    obtain ⟨hfault, hlexemes⟩ := h.scan hxs hnul
    have htokens : (Scan.ofText src).tokens.map Token.placeless = xs.map (Token.mk .nowhere) := by
      rw [← hlexemes, List.map_map]
      rfl
    rw [Datum.read, Scan.datum_placeless hfault, htokens]
  rw [hscan h hnul, hscan h' hnul']

theorem Datum.read_laidOut_comments :
    (∀ w ∈ ["(", "a", "\"b ;c\"", ")"], IsToken w) ∧
      LaidOut ["(", "a", "\"b ;c\"", ")"] "( a \"b ;c\" )" ∧
      LaidOut ["(", "a", "\"b ;c\"", ")"] ";x\n(;)\na\t \"b ;c\";\n)\n" ∧
      ((Datum.read "( a \"b ;c\" )").map Datum.placeless).mapError ReadError.fault =
        ((Datum.read ";x\n(;)\na\t \"b ;c\";\n)\n").map Datum.placeless).mapError
          ReadError.fault := by
  have hwords : ∀ w ∈ ["(", "a", "\"b ;c\"", ")"], IsToken w := by
    simp only [List.forall_mem_cons, List.not_mem_nil, false_implies, implies_true, and_true]
    exact ⟨⟨.openParen, by decide⟩, ⟨.symbol "a", by decide⟩, ⟨.string "b ;c", by decide⟩,
      ⟨.closeParen, by decide⟩⟩
  have hblank : ∀ {l}, IsLayout l → IsLayout (' ' :: l) := .blank (by decide)
  have hnewline : ∀ {l}, IsLayout l → IsLayout ('\n' :: l) := .blank (by decide)
  have hplain : LaidOut ["(", "a", "\"b ;c\"", ")"] "( a \"b ;c\" )" :=
    ⟨[], _, .nil, .cons (hblank .nil) (by simp) (.cons (hblank .nil) (by simp)
      (.cons (hblank .nil) (by simp) (.cons .nil (by simp) .nil))), by decide⟩
  have hcomments : LaidOut ["(", "a", "\"b ;c\"", ")"] ";x\n(;)\na\t \"b ;c\";\n)\n" :=
    ⟨_, _, @IsLayout.comment ['x'] [] (by decide) .nil,
      .cons (@IsLayout.comment [')'] [] (by decide) .nil) (by simp)
        (.cons (@IsLayout.blank '\t' _ (by decide) (hblank .nil)) (by simp)
          (.cons (@IsLayout.comment [] [] (by decide) .nil) (by simp)
            (.cons (hnewline .nil) (by simp) .nil))), by decide⟩
  exact ⟨hwords, hplain, hcomments,
    Datum.read_laidOut hwords hplain hcomments (by decide) (by decide)⟩

end TreeSema
