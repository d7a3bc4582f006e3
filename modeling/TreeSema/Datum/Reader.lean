import TreeSema.Datum.Basic
import TreeSema.Datum.Token

/-!
# Reading data

    datum ::= symbol | string | integer | '...' | '(' (datum | '^' map)* ')' | map | '[' datum* ']'
    map   ::= '{' [entry (',' entry)* [',']] '}'
    entry ::= symbol ':' datum

A text is one datum. The metadata maps of a list are merged: a key keeps the place of its first
occurrence and the value of its last.

When a text cannot be read, the first thing that stands in the way is reported. The reader looks
one token ahead, so a fault of the text itself is reported as soon as it is next in line, and
before anything the reader could say.
-/
namespace TreeSema

open Text (Pos)

/-- What the reader was looking for when it had to stop. -/
inductive Wanted where
  | datum
  | noteBrace
  | item
  | key
  | colon
  | separator
  | mapEnd
  | arrayEnd
  | finish
  deriving DecidableEq, Repr

/-- What was wanted, and the tokens that were left. -/
structure Stop where
  wanted : Wanted
  rest : List Token
  deriving DecidableEq, Repr

/-- Why a text is no datum. -/
inductive SyntaxFault where
  | lexical (fault : LexFault)
  | unwelcome (wanted : Wanted) (found : Option Lexeme)
  deriving DecidableEq, Repr

structure ReadError where
  pos : Pos
  fault : SyntaxFault
  deriving DecidableEq, Repr

def SyntaxFault.message : SyntaxFault → String
  | .lexical fault => fault.message
  | .unwelcome wanted found =>
    let got := (found.map Lexeme.describe).getD "EOF"
    match wanted with
    | .datum => s!"unexpected token: {got}"
    | .noteBrace => s!"expected '\x7b' after '^' but got {got}"
    | .item => s!"expected ')' but got {got}"
    | .key => s!"expected symbol for map key but got {got}"
    | .colon => s!"expected ':' after map key but got {got}"
    | .separator => s!"expected ',' or '\x7d' in map but got {got}"
    | .mapEnd => s!"expected '\x7d' but got {got}"
    | .arrayEnd => s!"expected ']' but got {got}"
    | .finish => s!"expected EOF but got {got}"

def ReadError.message (e : ReadError) : String := s!"{e.pos.toString}: {e.fault.message}"

/-! ## Metadata -/

/-- Sets a key: in place where it is present, at the end where it is not. -/
def setNote (notes : List (String × Datum)) (key : String) (value : Datum) :
    List (String × Datum) :=
  if notes.any (·.1 == key) then notes.map fun n => if n.1 == key then (key, value) else n
  else notes ++ [(key, value)]

/-- Adds the entries of one metadata map. -/
def mergeNotes (notes entries : List (String × Datum)) : List (String × Datum) :=
  entries.foldl (fun ns e => setNote ns e.1 e.2) notes

/-! ## The reader -/

mutual

/-- Reads one datum. The number bounds the recursion; twice the number of tokens is enough. -/
def readDatum : Nat → List Token → Except Stop (Datum × List Token)
  | 0, ts => .error ⟨.datum, ts⟩
  | fuel + 1, ts =>
    match ts with
    | ⟨p, .symbol text⟩ :: rest => .ok (.atom p [] .symbol text, rest)
    | ⟨p, .string text⟩ :: rest => .ok (.atom p [] .string text, rest)
    | ⟨p, .integer text⟩ :: rest => .ok (.atom p [] .integer text, rest)
    | ⟨p, .ellipsis⟩ :: rest => .ok (.atom p [] .ellipsis "...", rest)
    | ⟨p, .openParen⟩ :: rest => do
      let (notes, items, rest) ← readItems fuel [] rest
      .ok (.list p notes items, rest)
    | ⟨p, .openBrace⟩ :: rest => do
      let (entries, rest) ← readEntries fuel rest
      .ok (.map p [] entries, rest)
    | ⟨p, .openBracket⟩ :: rest => do
      let (items, rest) ← readElements fuel rest
      .ok (.array p [] items, rest)
    | _ => .error ⟨.datum, ts⟩

/-- Reads the items of a list and its metadata, up to the closing parenthesis. -/
def readItems : Nat → List (String × Datum) → List Token →
    Except Stop (List (String × Datum) × List Datum × List Token)
  | 0, _, ts => .error ⟨.item, ts⟩
  | fuel + 1, notes, ts =>
    match ts with
    | [] => .error ⟨.item, []⟩
    | ⟨_, .closeParen⟩ :: rest => .ok (notes, [], rest)
    | ⟨_, .caret⟩ :: ⟨_, .openBrace⟩ :: rest => do
      let (entries, rest) ← readEntries fuel rest
      readItems fuel (mergeNotes notes entries) rest
    | ⟨_, .caret⟩ :: rest => .error ⟨.noteBrace, rest⟩
    | _ => do
      let (item, rest) ← readDatum fuel ts
      let (notes, items, rest) ← readItems fuel notes rest
      .ok (notes, item :: items, rest)

/-- Reads the entries of a map, up to the closing brace. -/
def readEntries : Nat → List Token → Except Stop (List (String × Datum) × List Token)
  | 0, ts => .error ⟨.key, ts⟩
  | fuel + 1, ts =>
    match ts with
    | [] => .error ⟨.mapEnd, []⟩
    | ⟨_, .closeBrace⟩ :: rest => .ok ([], rest)
    | ⟨_, .symbol key⟩ :: ⟨_, .colon⟩ :: rest => do
      let (value, rest) ← readDatum fuel rest
      match rest with
      | ⟨_, .comma⟩ :: rest => do
        let (entries, rest) ← readEntries fuel rest
        .ok ((key, value) :: entries, rest)
      | ⟨_, .closeBrace⟩ :: rest => .ok ([(key, value)], rest)
      | rest => .error ⟨.separator, rest⟩
    | ⟨_, .symbol _⟩ :: rest => .error ⟨.colon, rest⟩
    | _ => .error ⟨.key, ts⟩

/-- Reads the items of an array, up to the closing bracket. -/
def readElements : Nat → List Token → Except Stop (List Datum × List Token)
  | 0, ts => .error ⟨.arrayEnd, ts⟩
  | fuel + 1, ts =>
    match ts with
    | [] => .error ⟨.arrayEnd, []⟩
    | ⟨_, .closeBracket⟩ :: rest => .ok ([], rest)
    | _ => do
      let (item, rest) ← readDatum fuel ts
      let (items, rest) ← readElements fuel rest
      .ok (item :: items, rest)

end

/-- Reads a whole token sequence as one datum. -/
def readTokens (ts : List Token) : Except Stop Datum :=
  match readDatum (2 * ts.length + 1) ts with
  | .error stop => .error stop
  | .ok (d, []) => .ok d
  | .ok (_, rest) => .error ⟨.finish, rest⟩

namespace Scan

/-- Has the reader come so close to the end, with `rest` still to read, that it has seen what
stopped the cutting of the text? -/
def endInSight (rest : List Token) : Bool := rest.length ≤ 1

/-- The error that a stop amounts to. -/
def errorAt (s : Scan) (stop : Stop) : ReadError :=
  match s.fault, endInSight stop.rest with
  | some (pos, fault), true => ⟨pos, .lexical fault⟩
  | _, _ =>
    match stop.rest with
    | [] => ⟨s.finish, .unwelcome stop.wanted none⟩
    | t :: _ => ⟨t.pos, .unwelcome stop.wanted (some t.lexeme)⟩

/-- The datum that a scanned text holds. -/
def datum (s : Scan) : Except ReadError Datum :=
  match readTokens s.tokens with
  | .error stop => .error (s.errorAt stop)
  | .ok d =>
    match s.fault with
    | some (pos, fault) => .error ⟨pos, .lexical fault⟩
    | none => .ok d

end Scan

/-- Reads a text as one datum. -/
def Datum.read (src : String) : Except ReadError Datum := (Scan.ofText src).datum

end TreeSema
