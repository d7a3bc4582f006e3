import TreeSema.Text.CharClass
import TreeSema.Text.Pos

/-!
# Tokens

A source text falls into white space, comments from `;` to the end of the line, and tokens. The
longest token wins at every place: `munch` says what stands at the front of a text and how many
characters it takes, and `Scan.ofChars` repeats that to the end or to the first fault. A character
that no token can start with, an unknown escape and a string without its closing quote are faults.

The character NUL ends a text.

Results:
* `Scan.ofChars_nil`, `Scan.ofChars_cons`: the scan, one step at a time.
-/
namespace TreeSema

open Text (Pos isBlank isDigit isLetter)

/-- What a token says. -/
inductive Lexeme where
  | symbol (text : String)
  | string (text : String)
  | integer (text : String)
  | ellipsis
  | openParen
  | closeParen
  | openBrace
  | closeBrace
  | openBracket
  | closeBracket
  | colon
  | comma
  | caret
  deriving DecidableEq, Repr

/-- A lexeme and the place of its first character. -/
structure Token where
  pos : Pos
  lexeme : Lexeme
  deriving DecidableEq, Repr

/-- Why a text cannot be cut into tokens. -/
inductive LexFault where
  | character (c : Char)
  | escape (c : Char)
  | openString
  deriving DecidableEq, Repr

def LexFault.message : LexFault → String
  | .character c => s!"unexpected character '{c}'"
  | .escape c => s!"invalid escape sequence: \\{c}"
  | .openString => "unterminated string"

/-- How a message names a lexeme. -/
def Lexeme.describe : Lexeme → String
  | .symbol _ => "symbol"
  | .string _ => "string"
  | .integer _ => "integer"
  | .ellipsis => "ellipsis"
  | .openParen => "'('"
  | .closeParen => "')'"
  | .openBrace => "'\x7b'"
  | .closeBrace => "'\x7d'"
  | .openBracket => "'['"
  | .closeBracket => "']'"
  | .colon => "':'"
  | .comma => "','"
  | .caret => "'^'"

/-! ## Words -/

/-- The characters operators are made of. -/
def operatorMarks : List Char := ['+', '-', '*', '/', '%', '<', '>', '=', '!', '&', '|', '~']

/-- Can a symbol start with this character? -/
def startsSymbol (c : Char) : Bool := isLetter c || c == '_' || operatorMarks.contains c

/-- Can a symbol go on with this character? -/
def continuesSymbol (c : Char) : Bool := startsSymbol c || isDigit c

/-- The rest of a symbol at the front of a text. A doubled colon belongs to the symbol, so that a
qualified name is one word, while a single colon ends it. -/
def symbolRest : List Char → List Char
  | ':' :: ':' :: cs => ':' :: ':' :: symbolRest cs
  | c :: cs => if continuesSymbol c then c :: symbolRest cs else []
  | [] => []

/-- The character that an escape stands for. -/
def unescape? : Char → Option Char
  | '"' => some '"'
  | '\\' => some '\\'
  | 'n' => some '\n'
  | 't' => some '\t'
  | _ => none

/-- What follows an opening quote: the text up to the closing one with the number of characters it
took, or a fault and the number of characters before it. -/
def quotedRest : List Char → Except (LexFault × Nat) (List Char × Nat)
  | [] => .error (.openString, 0)
  | '"' :: _ => .ok ([], 1)
  | '\\' :: [] => .error (.escape '\x00', 1)
  | '\\' :: e :: cs =>
    match unescape? e with
    | none => .error (.escape e, 1)
    | some c =>
      match quotedRest cs with
      | .ok (text, n) => .ok (c :: text, n + 2)
      | .error (fault, n) => .error (fault, n + 2)
  | c :: cs =>
    match quotedRest cs with
    | .ok (text, n) => .ok (c :: text, n + 1)
    | .error (fault, n) => .error (fault, n + 1)

/-! ## One token -/

/-- What stands at the front of a text: something to skip, a lexeme, or a fault. The number counts
characters beyond the first: those that are taken, or those that lie before the fault. -/
inductive Munch where
  | skip (more : Nat)
  | lexeme (lexeme : Lexeme) (more : Nat)
  | fault (fault : LexFault) (more : Nat)
  deriving DecidableEq, Repr

/-- The longest token, blank or comment at the front of the text `c :: cs`. -/
def munch (c : Char) (cs : List Char) : Munch :=
  if isBlank c then .skip 0
  else
    match c with
    | ';' => .skip (cs.takeWhile (· != '\n')).length
    | '(' => .lexeme .openParen 0
    | ')' => .lexeme .closeParen 0
    | '{' => .lexeme .openBrace 0
    | '}' => .lexeme .closeBrace 0
    | '[' => .lexeme .openBracket 0
    | ']' => .lexeme .closeBracket 0
    | ':' => .lexeme .colon 0
    | ',' => .lexeme .comma 0
    | '^' => .lexeme .caret 0
    | '"' =>
      match quotedRest cs with
      | .ok (text, n) => .lexeme (.string (String.ofList text)) n
      | .error (fault, n) => .fault fault (n + 1)
    | '.' =>
      match cs with
      | '.' :: '.' :: _ => .lexeme .ellipsis 2
      | '.' :: _ => .fault (.character '.') 1
      | _ => .fault (.character '.') 0
    | c =>
      if isDigit c || ((c == '+' || c == '-') && cs.head?.any isDigit) then
        let digits := cs.takeWhile isDigit
        .lexeme (.integer (String.ofList (c :: digits))) digits.length
      else if startsSymbol c then
        let rest := symbolRest cs
        .lexeme (.symbol (String.ofList (c :: rest))) rest.length
      else .fault (.character c) 0

/-! ## The whole text -/

/-- A text cut into tokens: the tokens, the place where they end, and the fault that stopped the
cutting, if one did. -/
structure Scan where
  tokens : List Token
  finish : Pos
  fault : Option (Pos × LexFault)
  deriving DecidableEq, Repr

def Scan.push (t : Token) (s : Scan) : Scan := { s with tokens := t :: s.tokens }

/-- Cuts a text that starts at `p` and holds no NUL. -/
def Scan.ofChars (p : Pos) : List Char → Scan
  | [] => ⟨[], p, none⟩
  | c :: cs =>
    match munch c cs with
    | .skip n => ofChars (p.after (c :: cs.take n)) (cs.drop n)
    | .lexeme x n => (ofChars (p.after (c :: cs.take n)) (cs.drop n)).push ⟨p, x⟩
    | .fault f n => ⟨[], p, some (p.after ((c :: cs).take n), f)⟩
  termination_by cs => cs.length
  decreasing_by all_goals (simp only [List.length_drop, List.length_cons]; omega)

/-- Cuts a text. -/
def Scan.ofText (src : String) : Scan :=
  .ofChars .start (src.toList.takeWhile (· != '\x00'))

@[simp] theorem Scan.ofChars_nil (p : Pos) : Scan.ofChars p [] = ⟨[], p, none⟩ := by
  simp [Scan.ofChars]

theorem Scan.ofChars_cons (p : Pos) (c : Char) (cs : List Char) :
    Scan.ofChars p (c :: cs) =
      match munch c cs with
      | .skip n => ofChars (p.after (c :: cs.take n)) (cs.drop n)
      | .lexeme x n => (ofChars (p.after (c :: cs.take n)) (cs.drop n)).push ⟨p, x⟩
      | .fault f n => ⟨[], p, some (p.after ((c :: cs).take n), f)⟩ := by
  rw [Scan.ofChars]

end TreeSema
