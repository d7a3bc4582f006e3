/-!
# Durations

A duration is shown in the largest unit that is not zero, with as many decimals as it needs; from a
second on, hours and minutes are shown apart.
-/
namespace TreeSema.Command

/-- A part of a unit of `10 ^ places`, after a point and without zeros at its end. -/
def fraction (places part : Nat) : String :=
  let digits := (toString (Nat.pow 10 places + part)).toList.tail
  let digits := (digits.reverse.dropWhile (· == '0')).reverse
  if digits.isEmpty then "" else "." ++ String.ofList digits

/-- A number of nanoseconds. -/
def duration (ns : Nat) : String :=
  if ns = 0 then "0s"
  else if ns < 1000 then s!"{ns}ns"
  else if ns < 1000000 then s!"{ns / 1000}{fraction 3 (ns % 1000)}µs"
  else if ns < 1000000000 then s!"{ns / 1000000}{fraction 6 (ns % 1000000)}ms"
  else
    let secs := ns / 1000000000
    let hours := if secs < 3600 then "" else s!"{secs / 3600}h"
    let minutes := if secs < 60 then "" else s!"{secs / 60 % 60}m"
    s!"{hours}{minutes}{secs % 60}{fraction 9 (ns % 1000000000)}s"

end TreeSema.Command
