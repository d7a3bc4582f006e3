/-!
# Integers in decimal

An integer is written with an optional sign and the digits `0` to `9`. Only those that fit in 64
bits, as two's complement, are numbers here.
-/
namespace TreeSema.Text

/-- The value of one of the digits `0` to `9`. -/
def digitValue? (c : Char) : Option Nat :=
  if '0' ≤ c ∧ c ≤ '9' then some (c.toNat - '0'.toNat) else none

/-- The number that digits stand for, read after the digits of `acc`. -/
def readDigits (acc : Nat) : List Char → Option Nat
  | [] => some acc
  | c :: cs =>
    match digitValue? c with
    | some d => readDigits (acc * 10 + d) cs
    | none => none

/-- The number that one or more digits stand for. -/
def natOfDigits? : List Char → Option Nat
  | [] => none
  | cs => readDigits 0 cs

/-- Does the number fit in 64 bits? -/
def fits64 (n : Int) : Bool := -0x8000000000000000 ≤ n && n < 0x8000000000000000

/-- A signed integer of any size. -/
def signed? : List Char → Option Int
  | '-' :: cs => (natOfDigits? cs).map fun n => -(n : Int)
  | '+' :: cs => (natOfDigits? cs).map fun n => (n : Int)
  | cs => (natOfDigits? cs).map fun n => (n : Int)

/-- A 64-bit integer in decimal. -/
def int64? (text : String) : Option Int := (signed? text.toList).filter fits64

/-- The 64-bit number that a sum or difference leaves after it has wrapped around. -/
def wrap64 (n : Int) : Int :=
  (n + 0x8000000000000000) % 0x10000000000000000 - 0x8000000000000000

end TreeSema.Text
