import TreeSema.Text.Real

/-!
# Integers in several bases

An integer is written in decimal, in binary after `0b`, in octal after `0o` or `0`, or in
hexadecimal after `0x`, in capital or small letters, with an optional sign. Underscores may separate
digits. It has to fit in 64 bits.
-/
namespace TreeSema.Text

/-- Why a text is not an integer. -/
inductive IntegerFault where
  | malformed
  | outOfRange
  deriving DecidableEq, Repr

/-- The value of a digit or a letter that is one of the digits of a base. -/
def digitIn? (base : Nat) (c : Char) : Option Nat :=
  let value :=
    match digitValue? c with
    | some d => some d
    | none =>
      if 'a' ≤ lower c ∧ lower c ≤ 'z' then some ((lower c).toNat - 'a'.toNat + 10) else none
  value.filter (· < base)

/-- Reads digits after those of `acc`. A number that leaves 64 bits is refused before the digits
after it are looked at. -/
def magnitude (base acc : Nat) : List Char → Except IntegerFault Nat
  | [] => .ok acc
  | c :: cs =>
    if c = '_' then magnitude base acc cs
    else
      match digitIn? base c with
      | none => .error .malformed
      | some d =>
        if acc * base + d < 2 ^ 64 then magnitude base (acc * base + d) cs
        else .error .outOfRange

/-- The base of an unsigned number, and its digits. -/
def baseOf : List Char → Nat × List Char
  | '0' :: x :: c :: cs =>
    if lower x = 'b' then (2, c :: cs)
    else if lower x = 'o' then (8, c :: cs)
    else if lower x = 'x' then (16, c :: cs)
    else (8, x :: c :: cs)
  | '0' :: cs => (8, cs)
  | cs => (10, cs)

def unsigned (cs : List Char) : Except IntegerFault Nat :=
  if cs.isEmpty then .error .malformed
  else
    match magnitude (baseOf cs).1 0 (baseOf cs).2 with
    | .error fault => .error fault
    | .ok n => if cs.contains '_' && !underscoresPlaced cs then .error .malformed else .ok n

/-- A 64-bit integer in any of the bases. -/
def integer (text : String) : Except IntegerFault Int :=
  let positive (cs : List Char) : Except IntegerFault Int :=
    match unsigned cs with
    | .error fault => .error fault
    | .ok n => if n < 0x8000000000000000 then .ok n else .error .outOfRange
  match text.toList with
  | '+' :: cs => positive cs
  | '-' :: cs =>
    match unsigned cs with
    | .error fault => .error fault
    | .ok n => if n ≤ 0x8000000000000000 then .ok (-n) else .error .outOfRange
  | cs => positive cs

end TreeSema.Text
