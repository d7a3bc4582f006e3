import TreeSema.Symbol.Resolve

/-!
# Listing a table

The root scope of a table, one entry a line, with the entries of a module indented below it.
-/
namespace TreeSema

/-- Fields in braces, `{}` when there are none. -/
def Fields.describe (fields : Fields) : String :=
  if fields.size = 0 then "\x7b\x7d"
  else
    "\x7b " ++ ", ".intercalate (fields.entries.map fun f => f.1.text ++ ": " ++ f.2.toString)
      ++ " \x7d"

def Payload.describe : Payload → String
  | .tuple types => "(" ++ ", ".intercalate (types.map Ty.toString) ++ ")"
  | .struct fields => " " ++ Fields.describe fields
  | _ => ""

def Signature.describe (name : String) (s : Signature) : String :=
  let params := s.params.map fun p => p.name.text ++ ": " ++ p.type.toString
  let params := if s.flags.has .variadicFn then params ++ ["..."] else params
  (if s.flags.has .unsafeFn then "unsafe " else "")
    ++ (if s.flags.has .foreignFn then "extern fn " else "fn ")
    ++ name ++ "(" ++ ", ".intercalate params ++ ") -> " ++ s.result.toString

def EnumBody.describe (d : EnumBody) : String :=
  let values := d.order.filterMap fun name =>
    (d.values.get? name).map fun v => s!"{name.text} = {v.value}"
  "\x7b " ++ ", ".intercalate values ++ " \x7d"

def VariantBody.describe (d : VariantBody) : String :=
  let arms := d.order.filterMap fun name =>
    (d.arms.get? name).map fun a => s!"{name.text}{a.payload.describe} = {a.ordinal}"
  "\x7b " ++ ", ".intercalate arms ++ " \x7d"

/-- One line for an entry. -/
def Entry.describe {M : Type} (e : Entry M) : String :=
  let name := e.name.text
  match e.kind with
  | .unspecified => s!"? {name}"
  | .aliasDef target => s!"alias {name} = {target.toString}"
  | .moduleDef _ => s!"module {name}"
  | .var v =>
    v.storage.name ++ " " ++ (if v.mutable then "mut " else "") ++ s!"{name}: {v.type.toString}"
  | .func s => s.describe name
  | .structDef fields => s!"struct {name} {Fields.describe fields}"
  | .unionDef fields => s!"union {name} {Fields.describe fields}"
  | .enumDef d => s!"enum {name} {d.describe}"
  | .variantDef d => s!"variant {name} {d.describe}"
  | .enumValue owner value => s!"{owner.text}::{name} = {value}"
  | .variantArm owner payload ordinal =>
    s!"{owner.text}::{name}{payload.describe} = {ordinal}"

namespace ModuleBody

mutual

/-- The lines of a table. -/
def lines : ModuleBody → List String
  | .table ⟨⟨transient, persistent, order, _⟩, _⟩ =>
    let persistent := linesOfEntries persistent
    let transient := linesOfEntries transient
    order.flatMap fun name =>
      (persistent.lookup name <|> transient.lookup name).getD []

/-- The lines of entries, by their names. -/
def linesOfEntries : List (Entry ModuleBody) → List (Ident × List String)
  | [] => []
  | ⟨name, static, .moduleDef (some body), loc⟩ :: es =>
    let own := (⟨name, static, .moduleDef (some body), loc⟩ : Entry ModuleBody).describe
    (name, own :: (lines body).map ("  " ++ ·)) :: linesOfEntries es
  | e :: es => (e.name, [e.describe]) :: linesOfEntries es

end

end ModuleBody

/-- The listing of a table. -/
def Symbols.listing (t : Symbols) : String :=
  String.join ((ModuleBody.table t).lines.map (· ++ "\n"))

end TreeSema
