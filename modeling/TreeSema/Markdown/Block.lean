import TreeSema.Markdown.Inline

/-!
# Blocks of a Markdown document

The headings and the fenced code blocks of a document, in order. Paragraphs, thematic breaks and
indented code are told apart only as far as they hide, end or become one of these. Lists, quotes
and embedded markup are not recognized.
-/
namespace TreeSema.Markdown

inductive Block where
  | heading (text : String)
  /-- A fenced block: the first word after the fence, its lines and the number of the first of
  them, which is 1 if it has none. -/
  | fence (language content : String) (line : Nat)
  deriving DecidableEq, Repr

/-- The block that a line may continue. -/
inductive Open where
  | nothing
  | paragraph (lines : List (List Char))
  | indented
  | fenced (f : Fence) (first : Nat) (lines : List (List Char))

/-- The block that is left when an open one ends. -/
def Open.close : Open → List Block
  | fenced f first lines =>
    [.fence (String.ofList f.language) (String.ofList lines.flatten) first]
  | _ => []

/-- The heading that a bar makes of the lines above it. -/
def barHeading (lines : List (List Char)) : Block :=
  .heading (plainText (trimRight (lines.map trimLeft).flatten))

/-- What a line starts that may follow a paragraph directly. -/
def interrupt? (col : Nat) (rest : List Char) : Option (List Block × Open) :=
  if isThematicBreak rest then some ([], .nothing)
  else
    match heading? rest, fence? col rest with
    | some text, _ => some ([.heading (plainText text)], .nothing)
    | none, some f => some ([], .fenced f 1 [])
    | none, none => none

/-- What a line starts where nothing is open. -/
def start (line : List Char) : List Block × Open :=
  let (col, rest) := indentFrom 0 line
  if isBlank line then ([], .nothing)
  else if 3 < col then ([], .indented)
  else (interrupt? col rest).getD ([], .paragraph [line])

/-- One line, the `n`-th: the blocks it completes and the block that is open after it. -/
def step (n : Nat) (line : List Char) : Open → List Block × Open
  | .nothing => start line
  | .paragraph lines =>
    let (col, rest) := indentFrom 0 line
    if isBlank line then ([], .nothing)
    else if 3 < col then ([], .paragraph (lines ++ [line]))
    else if isBar rest then ([barHeading lines], .nothing)
    else (interrupt? col rest).getD ([], .paragraph (lines ++ [line]))
  | .indented =>
    if isBlank line || 3 < (indentFrom 0 line).1 then ([], .indented) else start line
  | .fenced f first lines =>
    if f.isClosedBy line then (Open.close (.fenced f first lines), .nothing)
    else
      let first := if lines.isEmpty then n else first
      ([], .fenced f first (lines ++ [stripIndent f.indent line]))

/-- The blocks of lines that are numbered from `n`, after an open block. -/
def blocksFrom (n : Nat) (o : Open) : List (List Char) → List Block
  | [] => o.close
  | line :: rest =>
    let (blocks, o) := step n line o
    blocks ++ blocksFrom (n + 1) o rest

/-- The headings and fenced code blocks of a document. -/
def blocks (text : String) : List Block := blocksFrom 1 .nothing (splitLines text.toList)

end TreeSema.Markdown
