import TreeSema.Text.Decimal

/-!
# Spellings of real numbers

A real number is written in decimal, with an optional point and an optional exponent after `e`, or
in hexadecimal after `0x`, where the exponent after `p` is a power of two and cannot be left out.
Underscores may separate digits. Infinity and `nan` have names, in capital or small letters.

A number is refused when it is too large for a 64-bit floating point number; one that is too small
is taken for zero. All arithmetic here is exact.
-/
namespace TreeSema.Text

/-- Small letters for the capital ones of the first 128 characters. -/
def lower (c : Char) : Char := if 'A' ≤ c ∧ c ≤ 'Z' then Char.ofNat (c.toNat + 32) else c

/-- The value of a digit of the given base, 10 or 16. -/
def baseDigit? (base : Nat) (c : Char) : Option Nat :=
  match digitValue? c with
  | some d => some d
  | none =>
    if base = 16 ∧ 'a' ≤ lower c ∧ lower c ≤ 'f' then some ((lower c).toNat - 'a'.toNat + 10)
    else none

/-- A digit or a separating underscore. -/
def isDigitOrLine (base : Nat) (c : Char) : Bool := c == '_' || (baseDigit? base c).isSome

/-- The number that digits stand for; underscores do not count. -/
def digitsValue (base : Nat) (cs : List Char) : Nat :=
  (cs.filterMap (baseDigit? base)).foldl (fun n d => n * base + d) 0

/-- The number of digits; underscores do not count. -/
def digitCount (base : Nat) (cs : List Char) : Nat := (cs.filterMap (baseDigit? base)).length

/-! ## Underscores -/

/-- What was seen last, for the placing of underscores. -/
inductive Seen where
  | nothing
  | digit
  | line
  | mark
  deriving DecidableEq, Repr

/-- Does every underscore stand between digits? -/
def linesPlaced (base : Nat) : Seen → List Char → Bool
  | seen, [] => seen != .line
  | seen, c :: cs =>
    if (baseDigit? base c).isSome then linesPlaced base .digit cs
    else if c = '_' then seen == .digit && linesPlaced base .line cs
    else seen != .line && linesPlaced base .mark cs

/-- Does every underscore of an unsigned number stand between digits, where the mark of a base
counts as a digit? -/
def underscoresPlaced : List Char → Bool
  | '0' :: c :: cs =>
    if lower c = 'x' then linesPlaced 16 .digit cs
    else if lower c = 'b' ∨ lower c = 'o' then linesPlaced 10 .digit cs
    else linesPlaced 10 .nothing ('0' :: c :: cs)
  | cs => linesPlaced 10 .nothing cs

/-! ## Exponents -/

/-- Reads the digits of an exponent. An exponent of ten thousand or more takes no further digits:
it is out of every range already. -/
def exponentDigits (acc : Nat) : List Char → Nat
  | [] => acc
  | c :: cs =>
    match digitValue? c with
    | some d => exponentDigits (if acc < 10000 then acc * 10 + d else acc) cs
    | none => exponentDigits acc cs

/-- Reads an exponent, to the end of the text, after its mark. -/
def exponent? (cs : List Char) : Option Int :=
  let read (cs : List Char) : Option Nat :=
    match cs with
    | [] => none
    | c :: _ =>
      if (digitValue? c).isSome && cs.all (isDigitOrLine 10) then some (exponentDigits 0 cs)
      else none
  match cs with
  | '+' :: cs => (read cs).map fun e => (e : Int)
  | '-' :: cs => (read cs).map fun e => -(e : Int)
  | cs => (read cs).map fun e => (e : Int)

/-! ## Range -/

/-- The least number that is rounded up beyond the largest 64-bit floating point number. -/
def realLimit : Nat := Nat.pow 2 1024 - Nat.pow 2 970

/-- Is `mantissa * base ^ exponent` within range? -/
def inRange (mantissa base : Nat) : Int → Bool
  | .ofNat e => mantissa = 0 || mantissa * base.pow e < realLimit
  | .negSucc e => mantissa < realLimit * base.pow (e + 1)

/-! ## Numbers -/

/-- A number without its sign and without the mark of its base. -/
def isMagnitude (base : Nat) (cs : List Char) : Bool :=
  let whole := cs.takeWhile (isDigitOrLine base)
  let rest := cs.dropWhile (isDigitOrLine base)
  let (fraction, rest) := match rest with
    | '.' :: cs => (cs.takeWhile (isDigitOrLine base), cs.dropWhile (isDigitOrLine base))
    | cs => ([], cs)
  let digits := whole ++ fraction
  let scale : Int := digitCount base fraction
  let fits (e : Int) : Bool :=
    if base = 16 then inRange (digitsValue 16 digits) 2 (e - 4 * scale)
    else inRange (digitsValue 10 digits) 10 (e - scale)
  digitCount base digits != 0 &&
    match rest with
    | [] => base != 16 && fits 0
    | c :: cs =>
      lower c == (if base = 16 then 'p' else 'e') &&
        match exponent? cs with
        | some e => fits e
        | none => false

/-- A finite number without its sign. -/
def isUnsignedReal : List Char → Bool
  | cs@('0' :: x :: c :: rest) =>
    underscoresPlaced cs &&
      if lower x = 'x' then isMagnitude 16 (c :: rest) else isMagnitude 10 cs
  | cs => underscoresPlaced cs && isMagnitude 10 cs

/-- A name of infinity. -/
def isInfinity (cs : List Char) : Bool :=
  let cs := cs.map lower
  cs == "inf".toList || cs == "infinity".toList

/-- Is the text a real number that a 64-bit floating point number can hold? -/
def isReal (text : String) : Bool :=
  match text.toList with
  | '+' :: cs => isInfinity cs || isUnsignedReal cs
  | '-' :: cs => isInfinity cs || isUnsignedReal cs
  | cs => isInfinity cs || cs.map lower == "nan".toList || isUnsignedReal cs

end TreeSema.Text
