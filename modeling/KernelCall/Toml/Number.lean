import KernelCall.Toml.Quoted

/-!
# Numbers

Integers of one machine word, in base 10 with an optional sign or in base 16, 8 or 2 without, and
binary64 floats. An underscore may stand between two digits. A decimal fraction is read as the
float nearest to it; a positive one beyond the largest float is refused, a negative one is negative
infinity.
-/

namespace KernelCall.Toml

open Reader

/-- The digits that continue a number, underscores left out. -/
def digitsAfter (p : Char → Bool) : List Char → List Char × List Char
  | [] => ([], [])
  | '_' :: c :: cs =>
    if p c then
      let (ds, rest) := digitsAfter p cs
      (c :: ds, rest)
    else ([], '_' :: c :: cs)
  | c :: cs =>
    if p c then
      let (ds, rest) := digitsAfter p cs
      (c :: ds, rest)
    else ([], c :: cs)

/-- One digit or more. -/
def digits (p : Char → Bool) : Reader (List Char) := do
  let d ← satisfy p
  return d :: (← fun cs ↦ some (digitsAfter p cs))

/-- The whole part of a decimal number: without leading zeros. -/
def wholeDigits : Reader (List Char) := do
  if (← get).head? = some '0' then exactly (· == '0') 1 else digits Char.isDigit

def sign : Reader (Option Char) :=
  optional (satisfy fun c ↦ c == '+' || c == '-')

/-- The value of digits in a base. -/
def digitsValue (base : Nat) (ds : List Char) : Nat :=
  ds.foldl (fun n c ↦ base * n + (hexValue? c).getD 0) 0

/-- An integer of one machine word. -/
def word64? (i : Int) : Option Int :=
  if Int64.minValue.toInt ≤ i ∧ i ≤ Int64.maxValue.toInt then some i else none

/-- An integer in another base than 10. -/
def based (mark : String) (base : Nat) (p : Char → Bool) : Reader Int := do
  word mark
  word64? (digitsValue base (← digits p))

def decimal : Reader Int := do
  let s ← sign
  let n : Int := digitsValue 10 (← wholeDigits)
  word64? (if s = some '-' then -n else n)

def integer : Reader Int :=
  based "0x" 16 (fun c ↦ (hexValue? c).isSome) <|>
    based "0o" 8 (fun c ↦ '0' ≤ c && c ≤ '7') <|>
    based "0b" 2 (fun c ↦ c == '0' || c == '1') <|> decimal

/-- The float nearest to `n * 10 ^ e`. Above `10 ^ 310` that is infinity, below `10 ^ -330` zero. -/
def nearestFloat (n : Nat) (e : Int) : Float :=
  let magnitude : Int := e + (Nat.toDigits 10 n).length
  if n = 0 ∨ magnitude < -330 then 0
  else if 310 < magnitude then Float.ofScientific 1 false 400
  else Float.ofScientific n (e < 0) e.natAbs

/-- The exponent of a fraction. -/
def exponent : Reader Int := do
  discard (satisfy fun c ↦ c == 'e' || c == 'E')
  let s ← sign
  let n : Int := digitsValue 10 (← digits Char.isDigit)
  return if s = some '-' then -n else n

/-- A number with a fraction or an exponent. -/
def fraction : Reader Float := do
  let s ← sign
  let whole ← wholeDigits
  let part? ← optional do
    char '.'
    digits Char.isDigit
  let exponent? ← optional exponent
  if part?.isNone ∧ exponent?.isNone then failure
  let part := part?.getD []
  let x := nearestFloat (digitsValue 10 (whole ++ part)) (exponent?.getD 0 - part.length)
  if s = some '-' then return -x
  else if x.isInf then failure
  else return x

/-- The names of values that are not fractions. -/
def namedFloat : Reader Float := do
  let s ← sign
  let x ← (do word "inf"; return Float.ofScientific 1 false 400) <|> (do word "nan"; return 0.0 / 0.0)
  return if s = some '-' then -x else x

def float : Reader Float :=
  fraction <|> namedFloat

end KernelCall.Toml
