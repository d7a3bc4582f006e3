import TreeSema.Datum.Printer
import TreeSema.Datum.Token
import TreeSema.Text.Real
import Mathlib.Data.List.TakeWhile

/-!
# Words

A text is a symbol, or an integer, if the longest token at its front is one and takes all of it.
What matters is that such a word is cut off again when it is written in front of other text: it
ends where the text after it cannot go on a word (`Breaks`).

* `munch_symbol`, `munch_integer`, `munch_quoted`: a written word is the longest token at its front.
* `isInteger_toString`, `int64?_toString`: a number is written as an integer, and is read back.
* `Text.nul_not_mem_of_isReal`: the text of a real number holds no NUL.
-/
namespace TreeSema

open Text

/-! ## Symbols -/

variable {c : Char} {r cs : List Char} {x : Lexeme} {s : String} {n : Nat}

/-- The text cannot go on a word that ends before it. -/
def Breaks (r : List Char) : Prop := symbolRest r = []

instance (r : List Char) : Decidable (Breaks r) := inferInstanceAs (Decidable (_ = _))

theorem breaks_nil : Breaks [] := rfl

theorem breaks_cons (r : List Char) (hc : continuesSymbol c = false) (hcolon : c ≠ ':') :
    Breaks (c :: r) := by
  unfold Breaks symbolRest
  split
  · simp_all
  · simp_all
  · rfl

/-- A key is cut off at the colon after it. -/
theorem breaks_colon (r : List Char) : Breaks (':' :: ' ' :: r) := by
  have hc : continuesSymbol ':' = false := by decide
  simp [Breaks, symbolRest, hc]

theorem Breaks.head (h : Breaks (c :: r)) : continuesSymbol c = false := by
  unfold Breaks symbolRest at h
  split at h
  · cases h
  · split at h
    · cases h
    · simp_all
  · simp_all

theorem Breaks.not_digit (h : Breaks r) : r.head?.any isDigit = false := by
  cases r with
  | nil => rfl
  | cons c r =>
    have hc := h.head
    simp_all [continuesSymbol]

/-- A word does not end in a single colon, so no pair of colons begins in it and ends after it. -/
theorem symbolRest_append (hcs : symbolRest cs = cs) (r : List Char) :
    symbolRest (cs ++ r) = cs ++ symbolRest r := by
  fun_induction symbolRest cs with
  | case1 cs ih =>
    simp only [List.cons.injEq, true_and] at hcs
    simp only [List.cons_append, symbolRest, ih hcs]
  | case2 c cs hne hc ih =>
    simp only [List.cons.injEq, true_and] at hcs
    rw [List.cons_append, symbolRest, if_pos hc, ih hcs, List.cons_append]
    rintro cs' rfl -
    exact absurd hc (by decide)
  | case3 => cases hcs
  | case4 => rfl

/-- Does a number start with these characters? -/
def startsNumber (c : Char) (cs : List Char) : Bool :=
  isDigit c || ((c == '+' || c == '-') && cs.head?.any isDigit)

/-- The marks that are tokens by themselves or start a token that is no word. -/
def tokenMarks : List Char := [';', '(', ')', '\x7b', '\x7d', '[', ']', ':', ',', '^', '"', '.']

/-- What stands at the front of a text that starts with no mark. -/
theorem munch_word (hblank : isBlank c = false) (hmark : c ∉ tokenMarks) (cs : List Char) :
    munch c cs =
      if startsNumber c cs then
        .lexeme (.integer (String.ofList (c :: cs.takeWhile isDigit))) (cs.takeWhile isDigit).length
      else if startsSymbol c then
        .lexeme (.symbol (String.ofList (c :: symbolRest cs))) (symbolRest cs).length
      else .fault (.character c) 0 := by
  simp only [tokenMarks, List.mem_cons, List.not_mem_nil, or_false, not_or] at hmark
  unfold munch startsNumber
  rw [if_neg (by simp [hblank])]
  split <;> simp_all

theorem not_blank_of_startsSymbol (h : startsSymbol c = true) : isBlank c = false := by
  have hmarks : ('_' :: operatorMarks).all (!isBlank ·) = true := by decide
  cases hb : isBlank c with
  | false => rfl
  | true =>
    simp only [startsSymbol, not_isLetter_of_isBlank hb, Bool.false_or, Bool.or_eq_true, beq_iff_eq,
      List.contains_iff_mem] at h
    simpa [hb] using List.all_eq_true.1 hmarks c (List.mem_cons.2 h)

theorem not_mark_of_startsSymbol (h : startsSymbol c = true) : c ∉ tokenMarks := by
  have hmarks : tokenMarks.all (!startsSymbol ·) = true := by decide
  exact fun hc => by simpa [h] using List.all_eq_true.1 hmarks c hc

theorem not_mark_of_isDigit (h : isDigit c = true) : c ∉ tokenMarks := by
  have hmarks : tokenMarks.all (!isDigit ·) = true := by decide
  exact fun hc => by simpa [h] using List.all_eq_true.1 hmarks c hc

/-- The longest token at the front of the text is `x`, and it takes the whole text. -/
def Lexeme.spelled (x : Lexeme) (s : String) : Bool :=
  match s.toList with
  | [] => false
  | c :: cs => munch c cs == .lexeme x cs.length

/-- The text is one symbol. -/
def IsSymbol (s : String) : Prop := (Lexeme.symbol s).spelled s = true

/-- The text is one integer. -/
def IsInteger (s : String) : Prop := (Lexeme.integer s).spelled s = true

instance (s : String) : Decidable (IsSymbol s) := inferInstanceAs (Decidable (_ = _))

instance (s : String) : Decidable (IsInteger s) := inferInstanceAs (Decidable (_ = _))

theorem spelled_iff :
    x.spelled s = true ↔ ∃ c cs, s.toList = c :: cs ∧ munch c cs = .lexeme x cs.length := by
  unfold Lexeme.spelled
  split
  · simp_all
  · rename_i c cs hs
    rw [beq_iff_eq]
    constructor
    · exact fun h => ⟨c, cs, hs, h⟩
    · rintro ⟨c', cs', hs', h⟩
      cases hs.symm.trans hs'
      exact h

/-- Only a word starts with a character that is neither a blank nor a mark. -/
theorem not_mark_of_munch (h : munch c cs = .lexeme x n) (hx : x = .symbol s ∨ x = .integer s) :
    isBlank c = false ∧ c ∉ tokenMarks := by
  unfold munch at h
  split at h
  · cases h
  · rename_i hblank
    refine ⟨by simpa using hblank, ?_⟩
    split at h
    case h_13 => simp_all [tokenMarks]
    all_goals
      repeat' split at h
      all_goals (rcases hx with rfl | rfl <;> cases h)

/-- A symbol is a first character that can start one and characters that go on a symbol. -/
theorem munch_eq_symbol :
    munch c cs = .lexeme (.symbol s) n ↔ startsSymbol c = true ∧ startsNumber c cs = false ∧
      s = String.ofList (c :: symbolRest cs) ∧ n = (symbolRest cs).length := by
  constructor
  · intro h
    obtain ⟨hblank, hmark⟩ := not_mark_of_munch h (.inl rfl)
    rw [munch_word hblank hmark] at h
    split at h
    · cases h
    · split at h
      · cases h
        simp_all
      · cases h
  · rintro ⟨hstart, hnum, rfl, rfl⟩
    rw [munch_word (not_blank_of_startsSymbol hstart) (not_mark_of_startsSymbol hstart), hnum,
      hstart]
    rfl

/-- An integer is a digit, or a sign before one, and further digits. -/
theorem munch_eq_integer : munch c cs = .lexeme (.integer s) n ↔ startsNumber c cs = true ∧
      s = String.ofList (c :: cs.takeWhile isDigit) ∧ n = (cs.takeWhile isDigit).length := by
  constructor
  · intro h
    obtain ⟨hblank, hmark⟩ := not_mark_of_munch h (.inr rfl)
    rw [munch_word hblank hmark] at h
    split at h
    · cases h
      simp_all
    · split at h <;> cases h
  · rintro ⟨hnum, rfl, rfl⟩
    have hc : isBlank c = false ∧ c ∉ tokenMarks := by
      cases hd : isDigit c with
      | true =>
        refine ⟨?_, not_mark_of_isDigit hd⟩
        cases hb : isBlank c with
        | false => rfl
        | true => simp [not_isDigit_of_isBlank hb] at hd
      | false =>
        simp only [startsNumber, hd, Bool.false_or, Bool.and_eq_true, Bool.or_eq_true, beq_iff_eq]
          at hnum
        rcases hnum.1 with rfl | rfl <;> decide
    rw [munch_word hc.1 hc.2, if_pos hnum]

theorem isSymbol_iff : IsSymbol s ↔ ∃ c cs, s.toList = c :: cs ∧
    startsSymbol c = true ∧ startsNumber c cs = false ∧ symbolRest cs = cs := by
  simp only [IsSymbol, spelled_iff, munch_eq_symbol]
  constructor
  · rintro ⟨c, cs, hs, hstart, hnum, htext, -⟩
    refine ⟨c, cs, hs, hstart, hnum, ?_⟩
    rw [← String.toList_inj, hs, String.toList_ofList] at htext
    exact (List.cons.inj htext).2.symm
  · rintro ⟨c, cs, hs, hstart, hnum, hrest⟩
    refine ⟨c, cs, hs, hstart, hnum, ?_, by rw [hrest]⟩
    rw [← String.toList_inj, hs, String.toList_ofList, hrest]

theorem isInteger_iff : IsInteger s ↔ ∃ c cs, s.toList = c :: cs ∧
    startsNumber c cs = true ∧ cs.all isDigit = true := by
  simp only [IsInteger, spelled_iff, munch_eq_integer]
  constructor
  · rintro ⟨c, cs, hs, hnum, htext, -⟩
    refine ⟨c, cs, hs, hnum, ?_⟩
    rw [← String.toList_inj, hs, String.toList_ofList] at htext
    rw [(List.cons.inj htext).2, List.all_takeWhile]
  · rintro ⟨c, cs, hs, hnum, hall⟩
    have hrest : cs.takeWhile isDigit = cs := List.takeWhile_eq_self_iff.2 (by simpa using hall)
    refine ⟨c, cs, hs, hnum, ?_, by rw [hrest]⟩
    rw [← String.toList_inj, hs, String.toList_ofList, hrest]

/-! ## Words in front of other text -/

theorem startsNumber_append (hr : r.head?.any isDigit = false) :
    startsNumber c (cs ++ r) = startsNumber c cs := by
  cases cs with
  | nil => simp [startsNumber, hr]
  | cons d cs => rfl

theorem munch_symbol (hs : IsSymbol s) (htext : s.toList = c :: cs) (hr : Breaks r) :
    munch c (cs ++ r) = .lexeme (.symbol s) cs.length := by
  obtain ⟨c', cs', htext', hstart, hnum, hrest⟩ := isSymbol_iff.1 hs
  cases htext.symm.trans htext'
  have happ : symbolRest (cs ++ r) = cs := by
    rw [symbolRest_append hrest, show symbolRest r = [] from hr, List.append_nil]
  refine munch_eq_symbol.2 ⟨hstart, (startsNumber_append hr.not_digit).trans hnum, ?_, by rw [happ]⟩
  rw [happ, ← htext, String.ofList_toList]

theorem munch_integer (hs : IsInteger s) (htext : s.toList = c :: cs) (hr : Breaks r) :
    munch c (cs ++ r) = .lexeme (.integer s) cs.length := by
  obtain ⟨c', cs', htext', hnum, hall⟩ := isInteger_iff.1 hs
  cases htext.symm.trans htext'
  have hstop : r.takeWhile isDigit = [] := by
    cases r with
    | nil => rfl
    | cons d r => exact List.takeWhile_cons_of_neg (by simpa using hr.not_digit)
  have happ : (cs ++ r).takeWhile isDigit = cs := by
    rw [List.takeWhile_append_of_pos (by simpa using hall), hstop, List.append_nil]
  refine munch_eq_integer.2 ⟨(startsNumber_append hr.not_digit).trans hnum, ?_, by rw [happ]⟩
  rw [happ, ← htext, String.ofList_toList]

/-! ## Strings -/

/-- The characters that a character of a string is written with. -/
def escaped (c : Char) : List Char := if c = '\\' ∨ c = '"' then ['\\', c] else [c]

theorem toList_escape (text : String) :
    (Datum.escape text).toList = text.toList.flatMap escaped := by
  simp only [Datum.escape, String.toList_ofList]
  rfl

theorem quotedRest_escaped (c : Char) {text : List Char} (h : quotedRest cs = .ok (text, n)) :
    quotedRest (escaped c ++ cs) = .ok (c :: text, n + (escaped c).length) := by
  unfold escaped
  split
  · rename_i hc
    rcases hc with rfl | rfl <;> simp [quotedRest, unescape?, h]
  · rename_i hc
    simp only [not_or] at hc
    rw [List.cons_append, List.nil_append, quotedRest.eq_def]
    split <;> simp_all

theorem quotedRest_escape (text r : List Char) :
    quotedRest (text.flatMap escaped ++ '"' :: r) =
      .ok (text, (text.flatMap escaped).length + 1) := by
  induction text with
  | nil => simp [quotedRest]
  | cons c text ih =>
    rw [List.flatMap_cons, List.append_assoc, quotedRest_escaped c ih, List.length_append]
    congr 2
    omega

theorem munch_quoted (text : String) (r : List Char) :
    munch '"' ((Datum.escape text).toList ++ '"' :: r) =
      .lexeme (.string text) ((Datum.escape text).toList.length + 1) := by
  have hb : isBlank '"' = false := by decide
  simp [munch, hb, toList_escape, quotedRest_escape]

/-- A string is what stands between two quotes. -/
theorem munch_eq_string : munch c cs = .lexeme (.string s) n ↔
      c = '"' ∧ ∃ text, quotedRest cs = .ok (text, n) ∧ s = String.ofList text := by
  constructor
  · intro h
    unfold munch at h
    repeat' split at h
    all_goals cases h
    exact ⟨rfl, _, ‹_›, rfl⟩
  · rintro ⟨rfl, text, hquoted, rfl⟩
    have hb : isBlank '"' = false := by decide
    simp [munch, hb, hquoted]

/-! ## Tokens that are found -/

/-- A lexeme that stands for itself when it is written. -/
def Lexeme.Proper : Lexeme → Prop
  | symbol s => IsSymbol s
  | integer s => IsInteger s
  | string s => '\x00' ∉ s.toList
  | _ => True

theorem symbolRest_idem (cs : List Char) : symbolRest (symbolRest cs) = symbolRest cs := by
  fun_induction symbolRest cs with
  | case1 cs ih => simp [symbolRest, ih]
  | case2 c cs hne hc ih =>
    rw [symbolRest, if_pos hc, ih]
    rintro cs' rfl -
    exact absurd hc (by decide)
  | case3 => rfl
  | case4 => rfl

theorem head?_symbolRest (h : cs.head?.any isDigit = false) :
    (symbolRest cs).head?.any isDigit = false := by
  have hcolon : isDigit ':' = false := by decide
  unfold symbolRest
  split
  · simpa using hcolon
  · split <;> simp_all
  · rfl

/-- What is read of a quoted text is all that matters. -/
theorem quotedRest_take {text : List Char} (h : quotedRest cs = .ok (text, n)) :
    n ≤ cs.length ∧ ∀ r, quotedRest (cs.take n ++ r) = .ok (text, n) := by
  fun_induction quotedRest cs generalizing text n with
  | case1 => cases h
  | case2 => cases h; exact ⟨by simp, fun r => by simp [quotedRest]⟩
  | case3 => cases h
  | case4 => cases h
  | case5 e cs c hc rest m hrest ih =>
    cases h
    obtain ⟨hle, htake⟩ := ih hrest
    exact ⟨by simpa using hle, fun r => by simp [quotedRest, hc, htake]⟩
  | case6 => cases h
  | case7 c cs hquote hend hescape rest m hrest ih =>
    cases h
    obtain ⟨hle, htake⟩ := ih hrest
    refine ⟨by simpa using hle, fun r => ?_⟩
    clear ih
    specialize htake r
    have hplain : c ≠ '\\' := by
      rintro rfl
      cases cs with
      | nil => exact hend rfl rfl
      | cons e cs => exact hescape e cs rfl rfl
    rw [List.take_succ_cons, List.cons_append, quotedRest.eq_def]
    split <;> simp_all
  | case8 => cases h

theorem symbolRest_initial (cs : List Char) : symbolRest cs <+: cs := by
  fun_induction symbolRest cs with
  | case1 cs ih => exact List.cons_prefix_cons.2 ⟨rfl, List.cons_prefix_cons.2 ⟨rfl, ih⟩⟩
  | case2 c cs _ _ ih => exact List.cons_prefix_cons.2 ⟨rfl, ih⟩
  | case3 => exact List.nil_prefix
  | case4 => exact List.nil_prefix

/-- A token that is found is one by itself. -/
theorem munch_take (h : munch c cs = .lexeme x n) :
    n ≤ cs.length ∧ munch c (cs.take n) = .lexeme x n := by
  cases x with
  | symbol s =>
    obtain ⟨hstart, hnum, hs, rfl⟩ := munch_eq_symbol.1 h
    have hrest := symbolRest_initial cs
    rw [← List.prefix_iff_eq_take.1 hrest, munch_eq_symbol, symbolRest_idem]
    refine ⟨hrest.length_le, hstart, ?_, hs, rfl⟩
    simp only [startsNumber, Bool.or_eq_false_iff, Bool.and_eq_false_imp] at hnum ⊢
    exact ⟨hnum.1, fun hsign => head?_symbolRest (hnum.2 hsign)⟩
  | integer s =>
    obtain ⟨hnum, hs, rfl⟩ := munch_eq_integer.1 h
    have hdigits := List.takeWhile_prefix (l := cs) isDigit
    rw [← List.prefix_iff_eq_take.1 hdigits, munch_eq_integer, List.takeWhile_idem]
    refine ⟨hdigits.length_le, ?_, hs, rfl⟩
    cases cs with
    | nil => exact hnum
    | cons d cs =>
      simp only [startsNumber, List.head?_cons, Option.any_some] at hnum ⊢
      cases hd : isDigit d <;> simp_all
  | string s =>
    obtain ⟨rfl, text, hquoted, hs⟩ := munch_eq_string.1 h
    obtain ⟨hle, htake⟩ := quotedRest_take hquoted
    exact ⟨hle, munch_eq_string.2 ⟨rfl, text, by simpa using htake [], hs⟩⟩
  | _ =>
    unfold munch at h
    repeat' split at h
    all_goals cases h
    all_goals exact ⟨by simp, rfl⟩

theorem spelled_take (h : munch c cs = .lexeme x n) :
    x.spelled (String.ofList (c :: cs.take n)) = true := by
  obtain ⟨hle, htake⟩ := munch_take h
  exact spelled_iff.2 ⟨c, cs.take n, String.toList_ofList, by rwa [List.length_take_of_le hle]⟩

theorem nul_not_mem_quotedRest {text : List Char}
    (h : quotedRest cs = .ok (text, n)) (hnul : '\x00' ∉ cs) : '\x00' ∉ text := by
  fun_induction quotedRest cs generalizing text n with
  | case1 => cases h
  | case2 => cases h; simp
  | case3 => cases h
  | case4 => cases h
  | case5 e cs c hc rest m hrest ih =>
    cases h
    simp only [List.mem_cons, not_or] at hnul ⊢
    refine ⟨?_, ih hrest hnul.2.2⟩
    rintro rfl
    unfold unescape? at hc
    split at hc <;> simp at hc
  | case6 => cases h
  | case7 c cs _ _ _ rest m hrest ih =>
    cases h
    simp only [List.mem_cons, not_or] at hnul ⊢
    exact ⟨hnul.1, ih hrest hnul.2⟩
  | case8 => cases h

theorem proper_of_munch (h : munch c cs = .lexeme x n) (hnul : '\x00' ∉ cs) : x.Proper := by
  cases x with
  | symbol s =>
    obtain ⟨-, -, hs, rfl⟩ := munch_eq_symbol.1 h
    have hspelled := spelled_take h
    rwa [← List.prefix_iff_eq_take.1 (symbolRest_initial cs), ← hs] at hspelled
  | integer s =>
    obtain ⟨-, hs, rfl⟩ := munch_eq_integer.1 h
    have hspelled := spelled_take h
    rwa [← List.prefix_iff_eq_take.1 (List.takeWhile_prefix _), ← hs] at hspelled
  | string s =>
    obtain ⟨-, text, hquoted, rfl⟩ := munch_eq_string.1 h
    simpa [Lexeme.Proper] using nul_not_mem_quotedRest hquoted hnul
  | _ => trivial

theorem proper_of_mem_ofChars {p} (hnul : '\x00' ∉ cs) :
    ∀ t ∈ (Scan.ofChars p cs).tokens, t.lexeme.Proper := by
  fun_induction Scan.ofChars p cs with
  | case1 => simp
  | case2 p c cs n hm ih => exact ih fun h => hnul (by simp [List.mem_of_mem_drop h])
  | case3 p c cs x n hm ih =>
    have hcs : '\x00' ∉ cs := fun h => hnul (by simp [h])
    simp only [Scan.push, List.forall_mem_cons]
    exact ⟨proper_of_munch hm hcs, ih fun h => hcs (List.mem_of_mem_drop h)⟩
  | case4 => simp

/-- A text is cut into tokens that stand for themselves. -/
theorem proper_of_mem_ofText (src : String) :
    ∀ t ∈ (Scan.ofText src).tokens, t.lexeme.Proper :=
  proper_of_mem_ofChars fun h => by simpa using List.mem_takeWhile_imp h

theorem Scan.length_ofChars_le (p : Pos) (cs : List Char) :
    (Scan.ofChars p cs).tokens.length ≤ cs.length := by
  fun_induction Scan.ofChars p cs with
  | case1 => simp
  | case2 p c cs n hm ih =>
    simp only [List.length_drop, List.length_cons] at ih ⊢
    omega
  | case3 p c cs x n hm ih =>
    simp only [Scan.push, List.length_drop, List.length_cons] at ih ⊢
    omega
  | case4 => simp

/-- A text is cut into no more tokens than it has characters. -/
theorem Scan.length_ofText_le (src : String) : (Scan.ofText src).tokens.length ≤ src.length := by
  refine (Scan.length_ofChars_le _ _).trans ?_
  rw [← String.length_toList]
  exact (List.takeWhile_sublist _).length_le

/-! ## Numbers -/

theorem isDigit_of_ascii (h : c.isDigit = true) : isDigit c = true := by
  simp only [Char.isDigit, Bool.and_eq_true, decide_eq_true_eq] at h
  have hle : '0' ≤ c ∧ c ≤ '9' := h
  have hlt : c.toNat < 0x80 := Nat.lt_of_le_of_lt (show c.toNat ≤ 57 from h.2) (by decide)
  have hblank : ¬ (c = ' ' ∨ ('\x09' ≤ c ∧ c ≤ '\x0d')) := by
    rintro (rfl | ⟨-, hc⟩)
    · exact absurd h.1 (by decide)
    · exact absurd (Char.le_trans hle.1 hc) (by decide)
  simp [isDigit, CharClass.of, CharClass.ofAscii, hlt, hblank, hle]

theorem digitValue?_of_ascii (h : c.isDigit = true) :
    digitValue? c = some (c.toNat - '0'.toNat) := by
  simp only [Char.isDigit, Bool.and_eq_true, decide_eq_true_eq] at h
  exact if_pos h

theorem readDigits_eq (h : ∀ c ∈ cs, c.isDigit = true) (acc : Nat) :
    readDigits acc cs = some (Nat.ofDigitChars 10 cs acc) := by
  induction cs generalizing acc with
  | nil => rfl
  | cons c cs ih =>
    obtain ⟨hc, hcs⟩ := List.forall_mem_cons.1 h
    simp only [readDigits, digitValue?_of_ascii hc]
    rw [ih hcs, Nat.ofDigitChars_cons, Nat.mul_comm]

theorem isDigit_of_mem_toDigits (h : c ∈ Nat.toDigits 10 n) :
    c.isDigit = true := Nat.isDigit_of_mem_toDigits (by decide) (by decide) h

theorem natOfDigits?_toDigits (n : Nat) : natOfDigits? (Nat.toDigits 10 n) = some n := by
  have h := readDigits_eq (fun c => isDigit_of_mem_toDigits (n := n)) 0
  rw [Nat.ofDigitChars_ten_toDigits] at h
  unfold natOfDigits?
  split
  · rename_i hnil
    exact absurd hnil Nat.toDigits_ne_nil
  · exact h

/-- The characters that a number is written with. -/
theorem toList_toString (n : Int) : (toString n).toList =
    if 0 ≤ n then Nat.toDigits 10 n.toNat else '-' :: Nat.toDigits 10 (-n).toNat := by
  rw [Int.toString_eq_repr, Int.repr_eq_if]
  split <;> simp [Nat.repr_eq_ofList_toDigits]

theorem isInteger_toString (n : Int) : IsInteger (toString n) := by
  rw [isInteger_iff, toList_toString]
  have hdigits : ∀ m, ∃ c cs, Nat.toDigits 10 m = c :: cs ∧ isDigit c = true ∧
      cs.all isDigit = true := by
    intro m
    obtain ⟨c, cs, hcs⟩ := List.exists_cons_of_ne_nil (Nat.toDigits_ne_nil (n := m) (b := 10))
    have hall : ∀ d ∈ c :: cs, isDigit d = true := fun d hd =>
      isDigit_of_ascii (isDigit_of_mem_toDigits (hcs ▸ hd))
    exact ⟨c, cs, hcs, hall c (by simp), by simpa using fun d hd => hall d (by simp [hd])⟩
  split
  · obtain ⟨c, cs, hcs, hc, hall⟩ := hdigits n.toNat
    exact ⟨c, cs, hcs, by simp [startsNumber, hc], hall⟩
  · obtain ⟨c, cs, hcs, hc, hall⟩ := hdigits (-n).toNat
    exact ⟨'-', c :: cs, by rw [hcs], by simp [startsNumber, hc], by simp [hc, hall]⟩

/-- A number that fits in 64 bits is read back as it was written. -/
theorem int64?_toString {n : Int} (h : fits64 n = true) : int64? (toString n) = some n := by
  have hsigned : signed? (toString n).toList = some n := by
    rw [toList_toString]
    split
    · rename_i hn
      obtain ⟨c, cs, hcs⟩ :=
        List.exists_cons_of_ne_nil (Nat.toDigits_ne_nil (n := n.toNat) (b := 10))
      have hc : c.isDigit = true := isDigit_of_mem_toDigits (n := n.toNat) (by simp [hcs])
      have hplain : signed? (c :: cs) = (natOfDigits? (c :: cs)).map fun m => (m : Int) := by
        unfold signed?
        split
        · rename_i heq
          cases heq
          exact absurd hc (by decide)
        · rename_i heq
          cases heq
          exact absurd hc (by decide)
        · rfl
      rw [hcs, hplain, ← hcs, natOfDigits?_toDigits]
      simp [Int.toNat_of_nonneg hn]
    · rename_i hn
      rw [signed?, natOfDigits?_toDigits]
      change some (-((-n).toNat : Int)) = some n
      rw [Int.toNat_of_nonneg (by omega), Int.neg_neg]
  rw [int64?, hsigned, Option.filter_some, if_pos h]

/-! ## Real numbers -/

namespace Text

theorem isDigitOrLine_nul (base : Nat) : isDigitOrLine base '\x00' = false := by
  have hdigit : digitValue? '\x00' = none := by decide
  have hlower : ¬ 'a' ≤ lower '\x00' := by decide
  simp [isDigitOrLine, baseDigit?, hdigit, hlower]

/-- Leading digits hold no NUL. -/
theorem nul_not_mem_of_dropWhile (base : Nat) {rest : List Char}
    (hdrop : cs.dropWhile (isDigitOrLine base) = rest) (h : '\x00' ∉ rest) : '\x00' ∉ cs := by
  rw [← List.takeWhile_append_dropWhile (p := isDigitOrLine base) (l := cs), hdrop]
  simp only [List.mem_append, h, or_false]
  intro hmem
  simpa [isDigitOrLine_nul] using List.mem_takeWhile_imp hmem

theorem exponent?_of_nul (h : '\x00' ∈ cs) : exponent? cs = none := by
  have hall : ∀ {cs : List Char}, '\x00' ∈ cs → cs.all (isDigitOrLine 10) = false := fun h =>
    List.all_eq_false.2 ⟨_, h, by simp [isDigitOrLine_nul]⟩
  unfold exponent?
  split
  · rename_i cs
    cases cs with
    | nil => rfl
    | cons c cs =>
      simp only [hall (show '\x00' ∈ c :: cs by simpa using h), Bool.and_false]
      rfl
  · rename_i cs
    cases cs with
    | nil => rfl
    | cons c cs =>
      simp only [hall (show '\x00' ∈ c :: cs by simpa using h), Bool.and_false]
      rfl
  · cases cs with
    | nil => rfl
    | cons c cs =>
      simp only [hall h, Bool.and_false]
      rfl

/-- The mark of an exponent and the exponent after it. -/
theorem nul_not_mem_exponent {base : Nat}
    (hmark : lower c = if base = 16 then 'p' else 'e') (hexp : exponent? cs ≠ none) :
    '\x00' ∉ c :: cs := by
  simp only [List.mem_cons, not_or]
  refine ⟨?_, fun hmem => hexp (exponent?_of_nul hmem)⟩
  rintro rfl
  rw [show lower '\x00' = '\x00' by decide] at hmark
  split at hmark <;> exact absurd hmark (by decide)

theorem nul_not_mem_of_isMagnitude {base : Nat} (h : isMagnitude base cs = true) : '\x00' ∉ cs := by
  unfold isMagnitude at h
  dsimp only at h
  simp only [Bool.and_eq_true] at h
  -- what is left after the digits is an exponent or nothing
  replace h := h.2
  refine nul_not_mem_of_dropWhile base rfl ?_
  generalize cs.dropWhile (isDigitOrLine base) = rest at h ⊢
  split at h
  · rename_i hrest
    split at hrest
    · rename_i cs
      have hcs : '\x00' ∉ cs := nul_not_mem_of_dropWhile base hrest (by simp)
      simpa using hcs
    · simp_all
  · rename_i c' cs' hrest
    simp only [Bool.and_eq_true, beq_iff_eq] at h
    have hnul : '\x00' ∉ c' :: cs' :=
      nul_not_mem_exponent h.1 (by rintro hnone; simp [hnone] at h)
    split at hrest
    · rename_i cs
      have hcs : '\x00' ∉ cs := nul_not_mem_of_dropWhile base hrest hnul
      simpa using hcs
    · simp_all

theorem nul_not_mem_of_isUnsignedReal (h : isUnsignedReal cs = true) : '\x00' ∉ cs := by
  unfold isUnsignedReal at h
  split at h
  · rename_i x c rest
    simp only [Bool.and_eq_true] at h
    split at h
    · rename_i hx
      have hrest := nul_not_mem_of_isMagnitude h.2
      have hne : '\x00' ≠ x := by
        rintro rfl
        exact absurd hx (by decide)
      simp only [List.mem_cons, not_or] at hrest ⊢
      exact ⟨by decide, hne, hrest⟩
    · exact nul_not_mem_of_isMagnitude h.2
  · simp only [Bool.and_eq_true] at h
    exact nul_not_mem_of_isMagnitude h.2

theorem nul_not_mem_of_map_lower {ds : List Char} (h : cs.map lower = ds) (hds : '\x00' ∉ ds) :
    '\x00' ∉ cs := by
  intro hmem
  have hlower : lower '\x00' = '\x00' := by decide
  exact hds (h ▸ hlower ▸ List.mem_map_of_mem hmem)

theorem nul_not_mem_of_isInfinity (h : isInfinity cs = true) : '\x00' ∉ cs := by
  simp only [isInfinity, Bool.or_eq_true, beq_iff_eq] at h
  rcases h with h | h
  all_goals exact nul_not_mem_of_map_lower h (by decide)

/-- The text of a real number holds no NUL. -/
theorem nul_not_mem_of_isReal {text : String} (h : isReal text = true) : '\x00' ∉ text.toList := by
  unfold isReal at h
  split at h
  iterate 2
    rename_i cs htext
    rw [htext]
    simp only [Bool.or_eq_true] at h
    have hcs : '\x00' ∉ cs := h.elim nul_not_mem_of_isInfinity nul_not_mem_of_isUnsignedReal
    simpa using hcs
  · simp only [Bool.or_eq_true, beq_iff_eq] at h
    rcases h with (h | h) | h
    · exact nul_not_mem_of_isInfinity h
    · exact nul_not_mem_of_map_lower h (by decide)
    · exact nul_not_mem_of_isUnsignedReal h

end Text

end TreeSema
