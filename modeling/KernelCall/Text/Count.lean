/-!
# Counts

Dimension counts, extents and axes are natural numbers of one machine word. Written in a type
name, a count is a run of decimal digits with an optional plus sign in front.
-/

namespace KernelCall.Text

/-- The largest count: one word of 64 bits. -/
def maxCount : Nat := UInt64.size - 1

/-- One more than a count. Behind the largest count the count starts over. -/
def succCount (n : Nat) : Nat := (n + 1) % UInt64.size

/-- The value of a run of decimal digits read onto `n`, if all of `cs` are digits. -/
def readDigits (n : Nat) : List Char → Option Nat
  | [] => some n
  | c :: cs => if c.isDigit then readDigits (10 * n + (c.toNat - '0'.toNat)) cs else none

/-- Reads a count. A lone sign, a blank or a value above `maxCount` is refused. -/
def readCount? (cs : List Char) : Option Nat :=
  let digits := match cs with
    | '+' :: rest => rest
    | _ => cs
  if digits.isEmpty then none
  else (readDigits 0 digits).filter (· ≤ maxCount)

end KernelCall.Text
