import TreeSema.Datum.Basic

/-!
# Writing data

One line, single blanks between items. Metadata of a list stands right after its leading symbol,
or first where there is none. In strings the backslash and the quote are escaped.
-/
namespace TreeSema.Datum

/-- The text of a string between its quotes. -/
def escape (text : String) : String :=
  String.ofList (text.toList.flatMap fun c => if c = '\\' ∨ c = '"' then ['\\', c] else [c])

/-- Puts the written metadata of a list among its written items. -/
def placeNotes (notes : List String) (afterHead : Bool) (items : List String) : List String :=
  if notes.isEmpty then items
  else
    let written := "^\x7b" ++ ", ".intercalate notes ++ "\x7d"
    let n := if afterHead then 1 else 0
    items.take n ++ written :: items.drop n

mutual

/-- The written form of a datum. -/
def render : Datum → String
  | .absent => "<nil>"
  | .atom _ _ .symbol text => text
  | .atom _ _ .integer text => text
  | .atom _ _ .string text => "\"" ++ escape text ++ "\""
  | .atom _ _ .ellipsis _ => "..."
  | .list _ notes items =>
    let afterHead := (Datum.list .nowhere [] items).head != ""
    "(" ++ " ".intercalate (placeNotes (renderEntries notes) afterHead (renderItems items)) ++ ")"
  | .array _ _ items => "[" ++ " ".intercalate (renderItems items) ++ "]"
  | .map _ _ entries => "\x7b" ++ ", ".intercalate (renderEntries entries) ++ "\x7d"
  | .unknown _ _ code => s!"UNKNOWN_NODE_TYPE_{code}"

/-- The written forms of items. -/
def renderItems : List Datum → List String
  | [] => []
  | d :: ds => d.render :: renderItems ds

/-- The written forms of keyed data. -/
def renderEntries : List (String × Datum) → List String
  | [] => []
  | (key, d) :: rest => (key ++ ": " ++ d.render) :: renderEntries rest

end

end TreeSema.Datum
