import TreeSema.Text.Integer
import TreeSema.Text.Quoted

/-!
# Flags

Arguments that start with one or two hyphens set options. A switch may be given a truth value after
an equals sign; a number is given after one or as the next argument. The first argument that is no
flag, or `--`, ends the flags.
-/
namespace TreeSema.Command

/-- What flags can set. -/
structure Options where
  verbose : Bool := false
  table : Bool := false
  jobs : Int := 1
  maxDepth : Int := 1000
  deriving DecidableEq, Repr

/-- The value of a flag and what it sets. -/
inductive Setting where
  | switch (set : Bool → Options → Options)
  | number (usual : Int) (set : Int → Options → Options)

structure Flag where
  name : String
  help : String
  setting : Setting

/-- What a usage message says of a flag. -/
def Flag.describe (f : Flag) : String :=
  let (kind, usual) : String × String :=
    match f.setting with
    | .switch _ => ("", "")
    | .number usual _ => (" int", if usual = 0 then "" else s!" (default {usual})")
  let head := "  -" ++ f.name ++ kind
  head ++ (if head.length ≤ 4 then "\t" else "\n    \t") ++ f.help ++ usual ++ "\n"

/-- The spellings of truth values. -/
def truth? (text : String) : Option Bool :=
  if ["1", "t", "T", "true", "TRUE", "True"].contains text then some true
  else if ["0", "f", "F", "false", "FALSE", "False"].contains text then some false
  else none

/-- Why flags are refused. Asking for help is one of the reasons. -/
inductive FlagFault where
  | help
  | badSyntax (arg : String)
  | undefined (name : String)
  | needsArgument (name : String)
  | badTruth (value name : String)
  | badNumber (value name : String) (fault : Text.IntegerFault)
  deriving DecidableEq, Repr

/-- The message for a fault; help needs none. -/
def FlagFault.message? : FlagFault → Option String
  | help => none
  | badSyntax arg => s!"bad flag syntax: {arg}"
  | undefined name => s!"flag provided but not defined: -{name}"
  | needsArgument name => s!"flag needs an argument: -{name}"
  | badTruth value name => s!"invalid boolean value {Text.quote value} for -{name}: parse error"
  | badNumber value name .malformed =>
    s!"invalid value {Text.quote value} for flag -{name}: parse error"
  | badNumber value name .outOfRange =>
    s!"invalid value {Text.quote value} for flag -{name}: value out of range"

/-- How an argument is to be taken. -/
inductive Argument where
  | operand
  | separator
  | malformed
  | flag (name : String) (value : Option String)
  deriving DecidableEq, Repr

/-- A flag without its hyphens. The value follows the first equals sign. -/
def Argument.ofName : List Char → Argument
  | [] => .malformed
  | c :: cs =>
    if c = '-' ∨ c = '=' then .malformed
    else
      let name := String.ofList ((c :: cs).takeWhile (· != '='))
      match (c :: cs).dropWhile (· != '=') with
      | [] => .flag name none
      | _ :: value => .flag name (some (String.ofList value))

def Argument.ofText (text : String) : Argument :=
  match text.toList with
  | ['-', '-'] => .separator
  | '-' :: '-' :: cs => .ofName cs
  | '-' :: c :: cs => .ofName (c :: cs)
  | _ => .operand

/-- Sets options by flags. What is left are the arguments after the flags. -/
def parseFlags (flags : List Flag) (o : Options) :
    List String → Except FlagFault (Options × List String)
  | [] => .ok (o, [])
  | arg :: rest =>
    match Argument.ofText arg with
    | .operand => .ok (o, arg :: rest)
    | .separator => .ok (o, rest)
    | .malformed => .error (.badSyntax arg)
    | .flag name value =>
      match flags.find? (·.name == name) with
      | none =>
        if name = "help" ∨ name = "h" then .error .help else .error (.undefined name)
      | some f =>
        match f.setting, value with
        | .switch set, none => parseFlags flags (set true o) rest
        | .switch set, some value =>
          match truth? value with
          | some b => parseFlags flags (set b o) rest
          | none => .error (.badTruth value name)
        | .number _ set, some value =>
          match Text.integer value with
          | .ok n => parseFlags flags (set n o) rest
          | .error fault => .error (.badNumber value name fault)
        | .number _ set, none =>
          match rest with
          | [] => .error (.needsArgument name)
          | value :: rest =>
            match Text.integer value with
            | .ok n => parseFlags flags (set n o) rest
            | .error fault => .error (.badNumber value name fault)

end TreeSema.Command
