/-!
# Lenient UTF-8

Bytes are read as UTF-8. A byte that starts no well-formed character counts as the replacement
character, and reading goes on with the byte after it, so any bytes can be read. Surrogates and
overlong forms are not well formed.
-/
namespace TreeSema.Text

/-- What stands for a byte that cannot be read. -/
def replacement : Char := '�'

/-- The six bits that a continuation byte carries, if `b` is one and lies between the bounds. -/
def tail? (low high b : UInt8) : Option Nat :=
  if low ≤ b ∧ b ≤ high then some (b.toNat % 64) else none

/-- The bounds of a second byte: some first bytes do not take every continuation byte. -/
def secondBounds (a : UInt8) : UInt8 × UInt8 :=
  if a = 0xE0 then (0xA0, 0xBF)
  else if a = 0xED then (0x80, 0x9F)
  else if a = 0xF0 then (0x90, 0xBF)
  else if a = 0xF4 then (0x80, 0x8F)
  else (0x80, 0xBF)

/-- The bits of the continuation bytes of a character of `n + 1` bytes that starts with `a`. -/
def tails? (a : UInt8) (n : Nat) (rest : List UInt8) : Option Nat :=
  match n, rest with
  | 1, b :: _ => tail? (secondBounds a).1 (secondBounds a).2 b
  | 2, b :: c :: _ => do
    let x ← tail? (secondBounds a).1 (secondBounds a).2 b
    let y ← tail? 0x80 0xBF c
    some (x * 64 + y)
  | 3, b :: c :: d :: _ => do
    let x ← tail? (secondBounds a).1 (secondBounds a).2 b
    let y ← tail? 0x80 0xBF c
    let z ← tail? 0x80 0xBF d
    some ((x * 64 + y) * 64 + z)
  | _, _ => none

/-- The first character of the bytes `a :: rest`, and how many bytes it takes beyond `a`. -/
def firstChar (a : UInt8) (rest : List UInt8) : Char × Nat :=
  let read (lead n : Nat) : Char × Nat :=
    match tails? a n rest with
    | some bits => (Char.ofNat (lead * Nat.pow 64 n + bits), n)
    | none => (replacement, 0)
  if a < 0x80 then (Char.ofNat a.toNat, 0)
  else if 0xC2 ≤ a ∧ a ≤ 0xDF then read (a.toNat % 32) 1
  else if 0xE0 ≤ a ∧ a ≤ 0xEF then read (a.toNat % 16) 2
  else if 0xF0 ≤ a ∧ a ≤ 0xF4 then read (a.toNat % 8) 3
  else (replacement, 0)

/-- The characters that bytes stand for. -/
def decodeUtf8 : List UInt8 → List Char
  | [] => []
  | a :: rest => (firstChar a rest).1 :: decodeUtf8 (rest.drop (firstChar a rest).2)
  termination_by bytes => bytes.length
  decreasing_by simp only [List.length_drop, List.length_cons]; omega

end TreeSema.Text
