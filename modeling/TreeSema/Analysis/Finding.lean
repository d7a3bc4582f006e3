import TreeSema.Diagnostic
import TreeSema.Tree.Basic

/-!
# Findings

What analysis has to say about a program: a cause at a location. `Cause.message` holds the wording
of every cause and `Cause.severity` tells the one warning from the errors.
-/
namespace TreeSema

/-- A type as a message shows it: beside the type, what it stands for if it names an alias. -/
structure Shown where
  type : Ty
  value : Option Ty := none
  deriving DecidableEq, Repr

def Shown.toString (s : Shown) : String :=
  match s.value with
  | some v => s!"{s.type.toString} (aka: {v.toString})"
  | none => s.type.toString

/-- What a name was expected to stand for. -/
inductive Role where
  | type
  | value
  | function
  | assignable
  deriving DecidableEq, Repr

def Role.name : Role → String
  | type => "type"
  | value => "value"
  | function => "function"
  | assignable => "variable"

/-- Trees that no text of a program gives rise to, and arms with numbers that cannot be encoded. -/
inductive Defect where
  | notProgram
  | nestedProgram
  | notExpression (kind : Kind)
  | malformedChain
  | malformedMember
  | unexpectedEntry (kind : String) (path : List Ident)
  | unknownArm (path : List Ident)
  | wideOrdinal (path : List Ident)
  | missingOperand
  deriving DecidableEq, Repr

def Defect.message : Defect → String
  | notProgram => "expected a program"
  | nestedProgram => "nested program"
  | notExpression kind => s!"unexpected {kind.name} in expression"
  | malformedChain => "malformed access chain"
  | malformedMember => "malformed member access"
  | unexpectedEntry kind path => s!"unexpected {kind} '{Ident.joinPath path}' in access path"
  | unknownArm path => s!"unknown arm shape of {Ident.joinPath path}"
  | wideOrdinal path => s!"discriminant of {Ident.joinPath path}: out of range"
  | missingOperand => "missing operand"

inductive Cause where
  -- Names
  | redefined (name : Ident)
  | notFound (path : List Ident)
  | typeNotFound (path : List Ident)
  | unexpectedKind (role : Role) (found : String) (path : List Ident)
  -- Types
  | mismatch (expected actual : Shown)
  | needsType (name : Ident)
  | emptyArray
  | operand (op : String) (type : Shown)
  | notReference (type : Shown)
  | notIndexable (type : Shown)
  | indexType (type : Shown)
  | selfAlias (name : Ident)
  | enumOverflow (value : Int) (path : List Ident)
  -- Shapes
  | noConstructor (path : List Ident)
  | noField (name : Ident) (type : Shown)
  | armArity (path : List Ident) (expected supplied : Nat)
  | argCount (path : List Ident) (expected supplied : Nat)
  | argCountAtLeast (path : List Ident) (expected supplied : Nat)
  | noParam (path : List Ident) (name : Ident)
  | missingArg (name : Ident) (path : List Ident)
  | assignTarget
  | externBody (name : Ident)
  | externInit (name : Ident)
  | externItem
  -- Mutability
  | constMutation (name : Ident)
  | immutableRef (name : Ident)
  | borrowImmutable (name : Ident)
  -- Safety
  | unionField (name : Ident) (path : List Ident)
  | unionLiteral (path : List Ident)
  | unsafeCall (path : List Ident)
  -- Control flow
  | outsideLoop (kind : Kind)
  | outsideFunction
  -- Limits and defects
  | tooDeep (limit : Nat)
  | defect (d : Defect)
  -- Warnings
  | uninitialized (path : List Ident)
  deriving DecidableEq, Repr

namespace Cause

def severity : Cause → Severity
  | uninitialized _ => .warning
  | _ => .error

def message : Cause → String
  | redefined name => s!"'{name.text}' is defined multiple times"
  | notFound path => s!"cannot find '{Ident.joinPath path}' in this scope"
  | typeNotFound path => s!"cannot find type '{Ident.joinPath path}' in this scope"
  | unexpectedKind role found path =>
    s!"expected {role.name}, found {found} '{Ident.joinPath path}'"
  | mismatch expected actual =>
    s!"mismatched types: expected {expected.toString}, found {actual.toString}"
  | needsType name => s!"type annotations needed for '{name.text}'"
  | emptyArray => "cannot infer the element type of an empty array"
  | operand op type => s!"cannot apply operator '{op}' to type '{type.toString}'"
  | notReference type => s!"type '{type.toString}' cannot be dereferenced"
  | notIndexable type => s!"type '{type.toString}' cannot be indexed"
  | indexType type => s!"array index must be an integer, found {type.toString}"
  | selfAlias name => s!"alias '{name.text}' refers to itself"
  | enumOverflow value path =>
    s!"value {value} of '{Ident.joinPath path}' does not fit in a C enum"
  | noConstructor path => s!"no such constructor in this namespace: {Ident.joinPath path}"
  | noField name type => s!"no field '{name.text}' on type '{type.toString}'"
  | armArity path expected supplied =>
    s!"variant arm '{Ident.joinPath path}' expects {expected} fields but {supplied} were supplied"
  | argCount path expected supplied =>
    s!"function '{Ident.joinPath path}' takes {expected} arguments but {supplied} were supplied"
  | argCountAtLeast path expected supplied =>
    s!"function '{Ident.joinPath path}' takes at least {expected} arguments"
      ++ s!" but {supplied} were supplied"
  | noParam path name =>
    s!"function '{Ident.joinPath path}' has no parameter named '{name.text}'"
  | missingArg name path =>
    s!"missing argument '{name.text}' in call to '{Ident.joinPath path}'"
  | assignTarget => "invalid assignment target"
  | externBody name => s!"extern function '{name.text}' cannot have a body"
  | externInit name => s!"extern variable '{name.text}' cannot have an initializer"
  | externItem => "only functions and variables can be declared extern"
  | constMutation name =>
    s!"const mutation: cannot assign to immutable variable '{name.text}'"
  | immutableRef name => s!"reference is immutable in current scope: '{name.text}'"
  | borrowImmutable name =>
    s!"cannot borrow immutable variable '{name.text}' as a mutable reference"
  | unionField name path =>
    s!"access to union field '{name.text}' of '{Ident.joinPath path}' requires an unsafe context"
  | unionLiteral path =>
    s!"union literal '{Ident.joinPath path}' requires an unsafe context"
  | unsafeCall path =>
    s!"call to unsafe function '{Ident.joinPath path}' requires an unsafe context"
  | outsideLoop kind => s!"'{kind.name}' outside of a loop"
  | outsideFunction => "'return' outside of a function"
  | tooDeep limit => s!"nesting exceeds the maximum depth of {limit}"
  | defect d => s!"internal error: {d.message}"
  | uninitialized path => s!"use of possibly uninitialized variable '{Ident.joinPath path}'"

end Cause

structure Finding where
  loc : Location
  cause : Cause
  deriving DecidableEq, Repr

def Finding.toDiagnostic (f : Finding) : Diagnostic :=
  .report f.loc f.cause.severity f.cause.message

end TreeSema
