import TreeSema.Proofs.Parts
import TreeSema.Proofs.RoundTrip.Word

/-!
# Positions

The place of a character is what comes of counting before it: one line for each newline, and one
column for each character since the last newline. The scan counts as it goes along (`Pos.after`);
here it is shown to arrive at this.

* `Scan.resumes`: a token stands at its place, and a scan that starts there finds the same tokens
  from it on.
* `Scan.pairwise_before`: tokens stand at increasing places.
* `Derives.positions_sublist`: so do a datum and what it holds, which stand at places of tokens.
* `Datum.contents_le_of_read`: no part of it holds more data than there are characters.
* `Datum.read_positions`: at the place of each part of a datum that was read stands its first
  character, and reading one datum from there gives the part.
-/
namespace TreeSema

open Text (Pos)

namespace Text.Pos

/-! ## Places in order -/

/-- Does `p` come strictly before `q`? -/
def Before (p q : Pos) : Prop := p.line < q.line ∨ (p.line = q.line ∧ p.col < q.col)

theorem Before.trans {p q r : Pos} (h : p.Before q) (h' : q.Before r) : p.Before r := by
  unfold Before at *
  omega

theorem before_irrefl (p : Pos) : ¬ p.Before p := by
  unfold Before
  omega

theorem before_next (p : Pos) (c : Char) : p.Before (p.next c) := by
  unfold Before next
  split
  · exact .inl (Nat.lt_succ_self _)
  · exact .inr ⟨rfl, Nat.lt_succ_self _⟩

theorem before_after (p : Pos) (c : Char) (cs : List Char) : p.Before (p.after (c :: cs)) := by
  induction cs generalizing p c with
  | nil => exact before_next p c
  | cons d cs ih => exact (before_next p c).trans (ih (p.next c) d)

/-! ## Counting -/

/-- The place after a text: lines are counted by newlines, columns from the last of them. -/
def count (before : List Char) : Pos :=
  ⟨before.count '\n' + 1, (before.reverse.takeWhile (· != '\n')).length + 1⟩

theorem start_after (before : List Char) : Pos.start.after before = count before := by
  induction before using List.reverseRecOn with
  | nil => rfl
  | append_singleton cs c ih =>
    rw [after_append, ih, after_cons, after_nil, next, count, count]
    split
    · rename_i hc
      simp [hc]
    · rename_i hc
      simp [hc]

/-- Further on in a text, more is counted. -/
theorem before_count {before : List Char} {n : Nat} (h : n < before.length) :
    (count (before.take n)).Before (count before) := by
  obtain ⟨c, cs, hdrop⟩ := List.exists_cons_of_ne_nil (List.drop_eq_nil_iff.not.2 (Nat.not_le.2 h))
  have hsplit : count before = (count (before.take n)).after (c :: cs) := by
    rw [← start_after, ← start_after, ← after_append, ← hdrop, List.take_append_drop]
  rw [hsplit]
  exact before_after _ c cs

/-- The rest of a text from a place on. -/
def seek (p : Pos) (cs : List Char) : Option (List Char) :=
  ((List.range (cs.length + 1)).find? fun n => count (cs.take n) = p).map cs.drop

theorem seek_count (before rest : List Char) :
    seek (count before) (before ++ rest) = some rest := by
  have hfind : (List.range ((before ++ rest).length + 1)).find?
      (fun n => count ((before ++ rest).take n) = count before) = some before.length := by
    rw [List.find?_range_eq_some]
    refine ⟨by simp, by rw [List.mem_range, List.length_append]; omega, fun n hn => ?_⟩
    have hlt := before_count hn
    have hne : count (before.take n) ≠ count before := fun heq => before_irrefl _ (heq ▸ hlt)
    rw [List.take_append_of_le_length (Nat.le_of_lt hn)]
    simpa using hne
  rw [seek, hfind, Option.map_some, List.drop_left]

end Text.Pos

/-! ## The places of tokens -/

namespace Scan

variable {p : Pos} {cs : List Char} {t : Token} {ts ts' : List Token}

/-- In the text `cs`, which begins at `p`, the token `t` stands at its place, and a scan that starts
there finds it and the tokens `ts`. -/
def Resumes (p : Pos) (cs : List Char) (t : Token) (ts : List Token) : Prop :=
  ∃ before c after n, cs = before ++ c :: after ∧ t.pos = p.after before ∧
    munch c after = .lexeme t.lexeme n ∧ (Scan.ofChars t.pos (c :: after)).tokens = t :: ts

theorem Resumes.behind {w : List Char} (h : Resumes (p.after w) cs t ts) :
    Resumes p (w ++ cs) t ts := by
  obtain ⟨before, c, after, n, rfl, hpos, hlexeme, htokens⟩ := h
  exact ⟨w ++ before, c, after, n, by simp, by rw [hpos, Pos.after_append], hlexeme, htokens⟩

/-- A scan resumes at every token. -/
theorem resumes (h : (Scan.ofChars p cs).tokens = ts ++ t :: ts') : Resumes p cs t ts' := by
  have hsplit : ∀ (c : Char) (cs : List Char) (n : Nat), c :: cs = c :: cs.take n ++ cs.drop n :=
    fun c cs n => by simp
  fun_induction Scan.ofChars p cs generalizing ts with
  | case1 => simp at h
  | case2 p c cs n hm ih =>
    rw [hsplit c cs n]
    exact (ih h).behind
  | case3 p c cs x n hm ih =>
    cases ts with
    | nil =>
      have hscan := Scan.ofChars_cons p c cs
      rw [hm] at hscan
      obtain ⟨rfl, rfl⟩ := List.cons.inj h
      exact ⟨[], c, cs, n, rfl, rfl, hm, by rw [hscan]; rfl⟩
    | cons t' ts =>
      rw [hsplit c cs n]
      exact (ih (List.cons.inj h).2).behind
  | case4 => simp at h

/-- Whatever comes before a text comes before its tokens. -/
theorem before_tokens {q : Pos} (hq : q.Before p) :
    ∀ t ∈ (Scan.ofChars p cs).tokens, q.Before t.pos := by
  fun_induction Scan.ofChars p cs with
  | case1 => simp
  | case2 p c cs n hm ih => exact ih (hq.trans (Pos.before_after p c _))
  | case3 p c cs x n hm ih =>
    exact List.forall_mem_cons.2 ⟨hq, ih (hq.trans (Pos.before_after p c _))⟩
  | case4 => simp

/-- Tokens stand at increasing places. -/
theorem pairwise_before (p : Pos) (cs : List Char) :
    ((Scan.ofChars p cs).tokens.map Token.pos).Pairwise Pos.Before := by
  fun_induction Scan.ofChars p cs with
  | case1 => exact .nil
  | case2 p c cs n hm ih => exact ih
  | case3 p c cs x n hm ih =>
    refine .cons ?_ ih
    rw [List.forall_mem_map]
    exact before_tokens (Pos.before_after p c _)
  | case4 => exact .nil

end Scan

/-! ## First characters -/

/-- The character that a written lexeme starts with. -/
def Lexeme.firstChar? : Lexeme → Option Char
  | symbol text => text.toList.head?
  | string _ => some '"'
  | integer text => text.toList.head?
  | ellipsis => some '.'
  | openParen => some '('
  | closeParen => some ')'
  | openBrace => some '{'
  | closeBrace => some '}'
  | openBracket => some '['
  | closeBracket => some ']'
  | colon => some ':'
  | comma => some ','
  | caret => some '^'

/-- The character that a written datum starts with. -/
def Datum.firstChar? : Datum → Option Char
  | atom _ _ .symbol text => text.toList.head?
  | atom _ _ .string _ => some '"'
  | atom _ _ .integer text => text.toList.head?
  | atom _ _ .ellipsis _ => some '.'
  | list .. => some '('
  | array .. => some '['
  | map .. => some '{'
  | absent => none
  | unknown .. => none

theorem firstChar?_of_munch {c : Char} {cs : List Char} {x : Lexeme} {n : Nat}
    (h : munch c cs = .lexeme x n) : x.firstChar? = some c := by
  cases x with
  | symbol s =>
    obtain ⟨-, -, rfl, -⟩ := munch_eq_symbol.1 h
    simp [Lexeme.firstChar?]
  | integer s =>
    obtain ⟨-, rfl, -⟩ := munch_eq_integer.1 h
    simp [Lexeme.firstChar?]
  | _ =>
    unfold munch at h
    repeat' split at h
    all_goals cases h
    all_goals rfl

/-! ## The places of data -/

variable {ts : List Token} {d : Datum}

/-- A datum stands where its first token stands, and starts as that does. -/
theorem Derives.first (h : Derives ts d) :
    ∃ t ts', ts = t :: ts' ∧ t.pos = d.pos ∧ t.lexeme.firstChar? = d.firstChar? := by
  cases h <;> exact ⟨_, _, rfl, rfl, rfl⟩

theorem Derives.pos_sublist (h : Derives ts d) : [d.pos].Sublist (ts.map Token.pos) := by
  obtain ⟨t, ts', rfl, hpos, -⟩ := h.first
  rw [List.map_cons, hpos]
  exact (List.nil_sublist _).cons_cons _

theorem DerivesElements.positions_sublist : ∀ {ts : List Token} {items : List Datum},
    DerivesElements ts items → (items.map Datum.pos).Sublist (ts.map Token.pos)
  | _, _, .nil => .slnil
  | _, _, .element hd helements => by
    rw [List.map_append]
    exact hd.pos_sublist.append helements.positions_sublist

theorem DerivesEntries.positions_sublist : ∀ {ts : List Token} {entries : List (String × Datum)},
    DerivesEntries ts entries →
      ((entries.map Prod.snd).map Datum.pos).Sublist (ts.map Token.pos)
  | _, _, .nil => .slnil
  | _, _, .last _ _ _ hd => (hd.pos_sublist.cons _).cons _
  | _, _, .entry _ _ _ _ hd hentries => by
    simp only [List.map_cons, List.map_append]
    exact ((hd.pos_sublist.append (hentries.positions_sublist.cons _)).cons _).cons _

theorem DerivesItems.positions_sublist : ∀ {ts : List Token} {given : List (String × Datum)}
    {items : List Datum}, DerivesItems ts given items →
      (items.map Datum.pos).Sublist (ts.map Token.pos)
  | _, _, _, .nil => .slnil
  | _, _, _, .item hd hitems => by
    rw [List.map_append]
    exact hd.pos_sublist.append hitems.positions_sublist
  | _, _, _, .note _ _ _ _ hitems => by
    simp only [List.map_cons, List.map_append]
    exact (((hitems.positions_sublist.cons _).trans (List.sublist_append_right _ _)).cons _).cons _

/-- A datum and what it holds stand, in order, at places of its tokens. -/
theorem Derives.positions_sublist (h : Derives ts d) :
    (d.pos :: d.contents.map Datum.pos).Sublist (ts.map Token.pos) := by
  have henclosed : ∀ {ps : List Pos} {ts : List Token} (p : Pos) (t t' : Token), t.pos = p →
      ps.Sublist (ts.map Token.pos) → (p :: ps).Sublist ((t :: (ts ++ [t'])).map Token.pos) := by
    rintro ps ts _ t t' rfl hps
    rw [List.map_cons, List.map_append]
    exact (hps.trans (List.sublist_append_left _ _)).cons_cons _
  cases h with
  | symbol | string | integer | ellipsis => exact .refl _
  | list p q hitems => exact henclosed p _ _ rfl hitems.positions_sublist
  | map p q hentries => exact henclosed p _ _ rfl hentries.positions_sublist
  | array p q helements => exact henclosed p _ _ rfl helements.positions_sublist

/-- No part of a datum that was read holds more data than there are characters. -/
theorem Datum.contents_le_of_read {src : String} (h : Datum.read src = .ok d) :
    d.Every fun e => e.contents.length ≤ src.length := by
  intro e he
  obtain ⟨ts, hts, hpart⟩ := (Scan.datum_eq_ok.1 h).2.part he
  have hcontents := hpart.positions_sublist.length_le
  have hchars := Scan.length_ofText_le src
  have htokens := hts.length_le
  simp only [List.length_cons, List.length_map] at hcontents
  omega

/-- Reads one datum at the front of a text that begins at `p`. -/
def Datum.readFront (p : Pos) (cs : List Char) : Except Stop (Datum × List Token) :=
  let tokens := (Scan.ofChars p (cs.takeWhile (· != '\x00'))).tokens
  readDatum (2 * tokens.length + 1) tokens

theorem Datum.readFront_of_derives {p} {cs : List Char} {rest}
    (htokens : (Scan.ofChars p (cs.takeWhile (· != '\x00'))).tokens = ts ++ rest)
    (hd : Derives ts d) : Datum.readFront p cs = .ok (d, rest) := by
  rw [Datum.readFront, htokens]
  exact readDatum_of_derives hd _ (by rw [List.length_append]; omega) rest

/-- Of a text that ends at the first NUL, the part from some place on ends there too. -/
theorem takeWhile_of_split {cs before rest : List Char}
    (h : cs.takeWhile (· != '\x00') = before ++ rest) :
    ∃ beyond, cs = before ++ (rest ++ beyond) ∧
      (rest ++ beyond).takeWhile (· != '\x00') = rest := by
  have hcs : cs = before ++ (rest ++ cs.dropWhile (· != '\x00')) := by
    rw [← List.append_assoc, ← h, List.takeWhile_append_dropWhile]
  refine ⟨_, hcs, ?_⟩
  have hbefore : ∀ c ∈ before, (c != '\x00') = true := fun c hc =>
    List.mem_takeWhile_imp (p := (· != '\x00')) (h ▸ List.mem_append_left rest hc)
  rw [← List.append_right_inj before, ← List.takeWhile_append_of_pos hbefore, ← hcs, h]

/-- At the place of each part of a datum that was read stands the first character of the part;
reading one datum from there gives the part; and what the part holds stands at increasing places
after its own. -/
theorem Datum.read_positions {src : String} {d e : Datum} (h : Datum.read src = .ok d)
    (he : d.Part e) :
    ∃ c rest, Pos.seek e.pos src.toList = some (c :: rest) ∧ e.firstChar? = some c ∧
      (∃ ts, Datum.readFront e.pos (c :: rest) = .ok (e, ts)) ∧
      (e.pos :: e.contents.map Datum.pos).Pairwise Pos.Before := by
  obtain ⟨-, hderives⟩ := Scan.datum_eq_ok.1 h
  obtain ⟨ts, ⟨ts₁, ts₂, htokens⟩, hpart⟩ := hderives.part he
  obtain ⟨t, ts', rfl, hpos, hfirst⟩ := hpart.first
  -- the scan resumes at the first token of the part
  have hsplit : (Scan.ofText src).tokens = ts₁ ++ t :: (ts' ++ ts₂) := by simp [← htokens]
  obtain ⟨before, c, after, n, htext, hplace, hlexeme, hscan⟩ := Scan.resumes hsplit
  obtain ⟨beyond, hsrc, hcut⟩ := takeWhile_of_split htext
  rw [hpos] at hplace hscan
  refine ⟨c, after ++ beyond, ?_, ?_, ⟨ts₂, ?_⟩, ?_⟩
  · rw [hplace, Pos.start_after, hsrc]
    exact Pos.seek_count before _
  · rw [← hfirst]
    exact firstChar?_of_munch hlexeme
  · refine Datum.readFront_of_derives ?_ hpart
    rw [← List.cons_append, hcut, hscan, List.cons_append]
  · have hall : ((Scan.ofText src).tokens.map Token.pos).Pairwise Pos.Before :=
      Scan.pairwise_before _ _
    have hwithin : (t :: ts').Sublist (Scan.ofText src).tokens := by
      rw [← htokens]
      exact (List.infix_append ts₁ _ ts₂).sublist
    exact hall.sublist (hpart.positions_sublist.trans (hwithin.map _))

/-- The value of the metadata of a list, behind a comment and a string that spans two lines:

    ; top
    ("a\n
    b" ^{k: -1})
-/
theorem Datum.read_positions_behindString :
    ∃ d e, Datum.read "; top\n(\"a\\n\nb\" ^\x7bk: -1\x7d)" = .ok d ∧ d.Part e ∧ e.pos = ⟨3, 9⟩ ∧
      ∃ c rest, Pos.seek ⟨3, 9⟩ "; top\n(\"a\\n\nb\" ^\x7bk: -1\x7d)".toList = some (c :: rest) ∧
        e.firstChar? = some c ∧ (∃ ts, Datum.readFront ⟨3, 9⟩ (c :: rest) = .ok (e, ts)) ∧
        (e.pos :: e.contents.map Datum.pos).Pairwise Pos.Before := by
  have hread : Datum.read "; top\n(\"a\\n\nb\" ^\x7bk: -1\x7d)" = .ok (.list ⟨2, 1⟩
      [("k", .atom ⟨3, 9⟩ [] .integer "-1")] [.atom ⟨2, 2⟩ [] .string "a\n\nb"]) := by cbv
  have hpart : (Datum.list ⟨2, 1⟩ [("k", .atom ⟨3, 9⟩ [] .integer "-1")]
      [.atom ⟨2, 2⟩ [] .string "a\n\nb"]).Part (.atom ⟨3, 9⟩ [] .integer "-1") :=
    .of_child (mem_children_of_note List.mem_cons_self) (.self _)
  exact ⟨_, _, hread, hpart, rfl, Datum.read_positions hread hpart⟩

end TreeSema
