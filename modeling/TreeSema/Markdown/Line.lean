/-!
# Lines of a Markdown document

What a single line can be: blank, indented, the bar under a heading, a thematic break, a heading
after number signs or the start of a fenced code block. Lines keep their line end, which counts as
white space. A tab reaches to the next column that is a multiple of four.
-/
namespace TreeSema.Markdown

/-- The lines of a text, each with its line end. -/
def splitLines : List Char → List (List Char)
  | [] => []
  | c :: cs =>
    if c = '\n' then [c] :: splitLines cs
    else
      match splitLines cs with
      | [] => [[c]]
      | line :: rest => (c :: line) :: rest

/-- White space: blanks, tabs and line ends. Other control characters are text. -/
def isSpace (c : Char) : Bool := c == ' ' || c == '\t' || c == '\n' || c == '\r'

def isBlank (line : List Char) : Bool := line.all isSpace

def trimLeft (cs : List Char) : List Char := cs.dropWhile isSpace

/-- Drops characters at the end. -/
def dropEndWhile (p : Char → Bool) (cs : List Char) : List Char :=
  (cs.reverse.dropWhile p).reverse

def trimRight (cs : List Char) : List Char := dropEndWhile isSpace cs

/-! ## Indentation -/

/-- The column after a tab in a column. -/
def nextTab (col : Nat) : Nat := col + (4 - col % 4)

/-- The column that blanks and tabs lead to from a column, and what follows them. -/
def indentFrom (col : Nat) : List Char → Nat × List Char
  | ' ' :: cs => indentFrom (col + 1) cs
  | '\t' :: cs => indentFrom (nextTab col) cs
  | cs => (col, cs)

/-- Drops blanks and tabs up to a column, from one that is reached. -/
def dropColumns (width col : Nat) : List Char → Nat × List Char
  | c :: cs =>
    if width ≤ col then (col, c :: cs)
    else if c = ' ' then dropColumns width (col + 1) cs
    else if c = '\t' then dropColumns width (nextTab col) cs
    else (col, c :: cs)
  | [] => (col, [])

/-- A line of a fenced block without the indentation of its fence. A tab that reaches beyond it
leaves blanks; a line with less indentation loses all it has, unless it is blank. -/
def stripIndent (width : Nat) (line : List Char) : List Char :=
  let (col, rest) := dropColumns width 0 line
  if width ≤ col then List.replicate (col - width) ' ' ++ rest
  else
    match rest with
    | [] => line
    | c :: _ => if c = '\n' then line else rest

/-! ## Kinds of lines

These are given a line without its indentation. -/

/-- The bar that makes the paragraph above it a heading. -/
def isBar (rest : List Char) : Bool :=
  let bar := trimRight rest
  !bar.isEmpty && (bar.all (· == '=') || bar.all (· == '-'))

def isThematicBreak (rest : List Char) : Bool :=
  let marks := rest.filter (!isSpace ·)
  3 ≤ marks.length && ['*', '-', '_'].any fun mark => marks.all (· == mark)

/-- The text of a heading, without number signs that close it. -/
def dropClosing (text : List Char) : List Char :=
  let before := dropEndWhile (· == '#') text
  match before.getLast? with
  | none => []
  | some c => if isSpace c then trimRight before else text

/-- The text of a heading that starts with one to six number signs. -/
def heading? (rest : List Char) : Option (List Char) :=
  let level := (rest.takeWhile (· == '#')).length
  let after := rest.drop level
  if level = 0 ∨ 6 < level then none
  else
    match after with
    | [] => some []
    | c :: _ => if isSpace c then some (dropClosing (trimRight (trimLeft after))) else none

def backtick : Char := '\x60'

/-- What the first line of a fenced block says. -/
structure Fence where
  mark : Char
  length : Nat
  indent : Nat
  language : List Char

/-- The fence that a line opens; `indent` is its indentation. The language is the first word after
it. What follows a fence of backticks may not have any. A single character there, if nothing comes
after it, is passed over. -/
def fence? (indent : Nat) (rest : List Char) : Option Fence :=
  match rest with
  | [] => none
  | mark :: _ =>
    let length := (rest.takeWhile (· == mark)).length
    let after := rest.drop length
    let info := if 2 ≤ (String.ofList after).utf8ByteSize then trimRight (trimLeft after) else []
    if (mark ≠ backtick ∧ mark ≠ '~') ∨ length < 3 then none
    else if mark = backtick ∧ info.contains backtick then none
    else some ⟨mark, length, indent, info.takeWhile (· != ' ')⟩

/-- Does a line close a fence? -/
def Fence.isClosedBy (f : Fence) (line : List Char) : Bool :=
  let (col, rest) := indentFrom 0 line
  let length := (rest.takeWhile (· == f.mark)).length
  col < 4 && f.length ≤ length && isBlank (rest.drop length)

end TreeSema.Markdown
