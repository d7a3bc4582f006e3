import TreeSema.Proofs.Layout

/-!
# Whole texts

A text that is read consists of the tokens of its datum, of white space and of comments, up to its
end or to a NUL, which ends it. So nothing of a text without NUL is passed over, and two texts that
can be read cannot be read as one. What follows a NUL is not looked at: there anything can stand.

* `Scan.composed`: a text without faults consists of its tokens and of layout.
* `Scan.ofChars_newline`: a text is cut in the same way in front of a line.
* `Datum.read_whole`: all of a text without NUL is read.
-/
namespace TreeSema

open Text (Pos isBlank)

/-- The text consists of tokens with these lexemes, of white space and of comments, each up to the
end of its line. -/
inductive Composed : List Lexeme → List Char → Prop
  | nil : Composed [] []
  | blank {xs c cs} (hc : isBlank c = true)
      (hcs : Composed xs cs) : Composed xs (c :: cs)
  | comment {xs} {text cs : List Char} (htext : '\n' ∉ text)
      (hend : ∀ c ∈ cs.head?, c = '\n') (hcs : Composed xs cs) : Composed xs (';' :: (text ++ cs))
  | token {x : Lexeme} {xs w cs} (hw : x.spelled (String.ofList w) = true)
      (hcs : Composed xs cs) : Composed (x :: xs) (w ++ cs)

theorem munch_eq_skip {c : Char} {cs : List Char} {n : Nat} (h : munch c cs = .skip n) :
    isBlank c = true ∧ n = 0 ∨ c = ';' ∧ n = (cs.takeWhile (· != '\n')).length := by
  unfold munch at h
  split at h
  · cases h
    exact .inl ⟨‹_›, rfl⟩
  · repeat' split at h
    all_goals cases h
    exact .inr ⟨rfl, rfl⟩

namespace Scan

variable {p : Pos} {cs : List Char}

/-- A text without faults consists of its tokens and of layout. -/
theorem composed (h : (ofChars p cs).fault = none) :
    Composed ((ofChars p cs).tokens.map Token.lexeme) cs := by
  fun_induction Scan.ofChars p cs with
  | case1 => exact .nil
  | case2 p c cs n hm ih =>
    rcases munch_eq_skip hm with ⟨hc, rfl⟩ | ⟨rfl, rfl⟩
    · exact .blank hc (ih h)
    · have hrest : cs.drop (cs.takeWhile (· != '\n')).length = cs.dropWhile (· != '\n') := by
        rw [← List.append_cancel_left_eq (cs.takeWhile (· != '\n')), List.takeWhile_append_dropWhile]
        exact List.prefix_iff_eq_append.1 (List.takeWhile_prefix _)
      have hline : '\n' ∉ cs.takeWhile (· != '\n') := fun hmem => by
        simpa using List.mem_takeWhile_imp hmem
      have hend : ∀ c ∈ (cs.dropWhile (· != '\n')).head?, c = '\n' := fun c hc => by
        have hstop := List.head?_dropWhile_not (· != '\n') cs
        rw [hc] at hstop
        simpa using hstop
      have hcomment := Composed.comment hline (hrest ▸ hend) (ih h)
      rwa [List.prefix_iff_eq_append.1 (List.takeWhile_prefix _)] at hcomment
  | case3 p c cs x n hm ih =>
    have htoken := Composed.token (spelled_take hm) (ih h)
    rwa [List.cons_append, List.take_append_drop] at htoken
  | case4 => cases h

theorem munch_skip_newline {c : Char} {n : Nat} (h : munch c cs = .skip n) (r : List Char) :
    n ≤ cs.length ∧ munch c (cs ++ '\n' :: r) = .skip n := by
  rcases munch_eq_skip h with ⟨hc, rfl⟩ | ⟨rfl, rfl⟩
  · exact ⟨Nat.zero_le _, by simp [munch, hc]⟩
  · have hb : isBlank ';' = false := by decide
    have hline : (cs ++ '\n' :: r).takeWhile (· != '\n') = cs.takeWhile (· != '\n') := by
      rw [List.takeWhile_append]
      split
      · rename_i hall
        simp [(List.takeWhile_prefix _).eq_of_length hall]
      · rfl
    exact ⟨(List.takeWhile_prefix _).length_le, by simp [munch, hb, hline]⟩

/-- A text without faults is cut in the same way in front of a line. -/
theorem ofChars_newline (h : (ofChars p cs).fault = none) (r : List Char) :
    ofChars p (cs ++ '\n' :: r) =
      (ofChars (p.after (cs ++ ['\n'])) r).prepend (ofChars p cs).tokens := by
  have hplace : ∀ (p : Pos) (c : Char) (cs : List Char) (n : Nat),
      (p.after (c :: cs.take n)).after (cs.drop n ++ ['\n']) = p.after (c :: cs ++ ['\n']) := by
    intro p c cs n
    rw [← Pos.after_append, ← List.append_assoc, List.cons_append, List.take_append_drop]
  fun_induction Scan.ofChars p cs with
  | case1 p =>
    have hskip : munch '\n' r = .skip 0 := rfl
    rw [List.nil_append, ofChars_cons, hskip]
    rfl
  | case2 p c cs n hm ih =>
    obtain ⟨hle, hskip⟩ := munch_skip_newline hm r
    rw [List.cons_append, ofChars_cons, hskip]
    simp only [List.take_append_of_le_length hle, List.drop_append_of_le_length hle]
    rw [ih h, hplace]
  | case3 p c cs x n hm ih =>
    have hle := (munch_take hm).1
    rw [List.cons_append, ofChars_cons, munch_append hm (ends_blank (by decide) r)]
    simp only [List.take_append_of_le_length hle, List.drop_append_of_le_length hle]
    rw [ih h, hplace]
    rfl
  | case4 => cases h

/-- Where a text begins makes no difference to its lexemes. -/
theorem lexemes_ofChars (p q : Pos) (cs : List Char) :
    (ofChars p cs).tokens.map Token.lexeme = (ofChars q cs).tokens.map Token.lexeme := by
  fun_induction Scan.ofChars p cs generalizing q with
  | case1 => simp
  | case2 p c cs n hm ih =>
    rw [ofChars_cons, hm]
    exact ih _
  | case3 p c cs x n hm ih =>
    rw [ofChars_cons, hm]
    exact congrArg (x :: ·) (ih _)
  | case4 p c cs f n hm =>
    rw [ofChars_cons, hm]

end Scan

/-! ## Texts that are read -/

theorem takeWhile_append_of_mem {l : List Char} {c : Char} (h : c ∈ l) (r : List Char) :
    (l ++ r).takeWhile (· != c) = l.takeWhile (· != c) := by
  rw [List.takeWhile_append]
  split
  · rename_i hall
    rw [← (List.takeWhile_prefix _).eq_of_length hall] at h
    simpa using List.mem_takeWhile_imp h
  · rfl

/-- No token is left after those of a datum. -/
theorem Derives.eq_nil {ts us x y} (h : Derives ts x) (h' : Derives (ts ++ us) y) : us = [] := by
  have hlen : ts.length ≤ (ts ++ us).length := (List.sublist_append_left ts us).length_le
  have hread := readDatum_of_derives h _ (Nat.mul_le_mul_left 2 hlen) us
  have hread' := readDatum_of_derives h' _ (Nat.le_refl _) []
  rw [List.append_nil, hread] at hread'
  cases hread'
  rfl

/-- A text without NUL and without faults is cut in the same way in front of another. -/
theorem Scan.ofText_newline {s : String} (hnul : '\x00' ∉ s.toList)
    (hfault : (Scan.ofText s).fault = none) (d : String) :
    ∃ q, Scan.ofText (s ++ "\n" ++ d) =
      (Scan.ofChars q (d.toList.takeWhile (· != '\x00'))).prepend (Scan.ofText s).tokens := by
  rw [Scan.ofText_eq hnul] at hfault ⊢
  refine ⟨_, Eq.trans ?_ (Scan.ofChars_newline hfault (d.toList.takeWhile (· != '\x00')))⟩
  have htext : (s ++ "\n" ++ d).toList = s.toList ++ '\n' :: d.toList := by simp
  have hplain : ∀ c ∈ s.toList, (c != '\x00') = true := fun c hc =>
    bne_iff_ne.2 fun heq => hnul (heq ▸ hc)
  rw [Scan.ofText, htext, List.takeWhile_append_of_pos hplain]
  rfl

/-- A text that is read consists of the tokens of its datum and of layout, up to a NUL. In front of
another text that is read it cannot be read, unless it holds a NUL. -/
theorem Datum.read_whole {s : String} {x : Datum} (hs : Datum.read s = .ok x) :
    (∃ ts, Derives ts x ∧
      Composed (ts.map Token.lexeme) (s.toList.takeWhile (· != '\x00'))) ∧
    ∀ d y, Datum.read d = .ok y →
      ((∃ e, Datum.read (s ++ "\n" ++ d) = .error e) ↔ '\x00' ∉ s.toList) := by
  obtain ⟨hfault, hx⟩ := Scan.datum_eq_ok.1 hs
  refine ⟨⟨_, hx, Scan.composed hfault⟩, fun d y hd => ⟨?_, fun hnul => ?_⟩⟩
  · rintro ⟨e, he⟩ hnul
    have hsame : Scan.ofText (s ++ "\n" ++ d) = Scan.ofText s := by
      rw [Scan.ofText, Scan.ofText, String.append_assoc, String.toList_append,
        takeWhile_append_of_mem hnul]
    rw [Datum.read, hsame] at he
    cases he.symm.trans hs
  · obtain ⟨q, hscan⟩ := Scan.ofText_newline hnul hfault d
    cases hread : Datum.read (s ++ "\n" ++ d) with
    | error e => exact ⟨e, rfl⟩
    | ok z =>
      -- the second text has a token, which is left after those of the first
      obtain ⟨-, hz⟩ := Scan.datum_eq_ok.1 hread
      rw [hscan] at hz
      obtain ⟨t, ts, hts, -⟩ := (Scan.datum_eq_ok.1 hd).2.starts
      have hlexemes := Scan.lexemes_ofChars q .start (d.toList.takeWhile (· != '\x00'))
      rw [hx.eq_nil hz, ← Scan.ofText, hts] at hlexemes
      cases hlexemes

/-- What follows a NUL is not looked at, be it another datum. -/
theorem Datum.read_past_nul :
    Datum.read "a\x00" = .ok (.atom ⟨1, 1⟩ [] .symbol "a") ∧
      Datum.read "b" = .ok (.atom ⟨1, 1⟩ [] .symbol "b") ∧
      Datum.read ("a\x00" ++ "\n" ++ "b") = .ok (.atom ⟨1, 1⟩ [] .symbol "a") :=
  ⟨by cbv, by cbv, by cbv⟩

/-- A comment at the end of the first text ends with its line. -/
theorem Datum.read_whole_comment :
    Datum.read "(f x) ; (" = .ok (.list ⟨1, 1⟩ []
        [.atom ⟨1, 2⟩ [] .symbol "f", .atom ⟨1, 4⟩ [] .symbol "x"]) ∧
      Datum.read "b\x00)" = .ok (.atom ⟨1, 1⟩ [] .symbol "b") ∧
      ∃ e, Datum.read ("(f x) ; (" ++ "\n" ++ "b\x00)") = .error e := by
  have hfirst : Datum.read "(f x) ; (" = .ok (.list ⟨1, 1⟩ []
      [.atom ⟨1, 2⟩ [] .symbol "f", .atom ⟨1, 4⟩ [] .symbol "x"]) := by cbv
  have hsecond : Datum.read "b\x00)" = .ok (.atom ⟨1, 1⟩ [] .symbol "b") := by cbv
  exact ⟨hfirst, hsecond, ((Datum.read_whole hfirst).2 _ _ hsecond).2 (by decide)⟩

end TreeSema
