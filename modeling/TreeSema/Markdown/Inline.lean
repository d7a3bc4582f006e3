import TreeSema.Markdown.Line

/-!
# Text of headings

The text of a heading is what is left of its lines when line ends and the white space before them
are dropped, and code spans lose their backticks. A code span starts with a row of backticks and
ends at the next row of the same length, which may be in a later line; line ends inside it stay. A
row of backticks that starts no code span is text.
-/
namespace TreeSema.Markdown

/-- What a code span of `n` backticks holds, and what follows it. The text read so far is `acc`,
last character first, and ends in `run` backticks. -/
def codeSpan? (n run : Nat) (acc : List Char) : List Char → Option (List Char × List Char)
  | [] => if run = n then some ((acc.drop n).reverse, []) else none
  | c :: cs =>
    if c = backtick then codeSpan? n (run + 1) (c :: acc) cs
    else if run = n then some ((acc.drop n).reverse, c :: cs)
    else codeSpan? n 0 (c :: acc) cs

/-- Can a character be dropped at the ends of a code span? -/
def isSpanPadding (c : Char) : Bool := c == ' ' || c == '\n'

/-- A code span that holds more than white space does not count a blank or a line end at each of
its ends, if it has both. -/
def trimSpan (code : List Char) : List Char :=
  if !isBlank code && code.head?.any isSpanPadding && code.getLast?.any isSpanPadding then
    code.tail.dropLast
  else code

/-- The text of the rest of a heading, after the text `acc`, last character first, that has been
read since the start of the line or the last backtick. -/
def plainTextFrom : Nat → List Char → List Char → List Char
  | fuel + 1, acc, c :: cs =>
    if c = '\n' then trimRight acc.reverse ++ plainTextFrom fuel [] cs
    else if c = backtick then
      let n := (cs.takeWhile (· == backtick)).length + 1
      match codeSpan? n 0 [] (cs.drop (n - 1)) with
      | some (code, rest) => acc.reverse ++ trimSpan code ++ plainTextFrom fuel [] rest
      | none =>
        acc.reverse ++ List.replicate n backtick ++ plainTextFrom fuel [] (cs.drop (n - 1))
    else plainTextFrom fuel (c :: acc) cs
  | _, acc, _ => trimRight acc.reverse

/-- The text of a heading. -/
def plainText (cs : List Char) : String := String.ofList (plainTextFrom cs.length [] cs)

end TreeSema.Markdown
