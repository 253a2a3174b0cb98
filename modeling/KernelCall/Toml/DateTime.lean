import KernelCall.Toml.Number

/-!
# Dates and times

Dates, times of day and both together, the latter with or without an offset from UTC. A date must
be in the calendar; of a fraction of a second nine digits count. Reading one yields its normal
form.
-/

namespace KernelCall.Toml

open Reader

namespace DateTime

/-- A number of two digits up to a limit. -/
def pair (limit : Nat) : Reader Nat := do
  let n := digitsValue 10 (← exactly Char.isDigit 2)
  if n ≤ limit then return n else failure

/-- A number in at least `width` digits. -/
def padded (width n : Nat) : String :=
  let ds := Nat.toDigits 10 n
  String.ofList (List.replicate (width - ds.length) '0' ++ ds)

def isLeap (year : Nat) : Bool :=
  year % 4 == 0 && (year % 100 != 0 || year % 400 == 0)

/-- Number of days in a month. -/
def monthLength (year month : Nat) : Nat :=
  if month = 2 then if isLeap year then 29 else 28
  else if month ∈ [4, 6, 9, 11] then 30 else 31

def date : Reader String := do
  let year := digitsValue 10 (← exactly Char.isDigit 4)
  char '-'
  let month ← pair 12
  char '-'
  let day ← pair 31
  if 1 ≤ month ∧ 1 ≤ day ∧ day ≤ monthLength year month then
    return padded 4 year ++ "-" ++ padded 2 month ++ "-" ++ padded 2 day
  else failure

/-- The digits of a fraction that count, without zeros at the end. -/
def countedDigits (ds : List Char) : List Char :=
  ((ds.take 9).reverse.dropWhile (· == '0')).reverse

def time : Reader String := do
  let hour ← pair 23
  char ':'
  let minute ← pair 59
  char ':'
  let second ← pair 60
  let part? ← optional do
    char '.'
    return (← satisfy Char.isDigit) :: (← run Char.isDigit)
  let part := countedDigits (part?.getD [])
  return padded 2 hour ++ ":" ++ padded 2 minute ++ ":" ++ padded 2 second ++
    if part.isEmpty then "" else "." ++ String.ofList part

def offset : Reader String :=
  (do discard (satisfy fun c ↦ c == 'Z' || c == 'z'); return "Z") <|> do
    let s ← satisfy fun c ↦ c == '+' || c == '-'
    let hour ← pair 23
    char ':'
    let minute ← pair 59
    return (if s = '-' ∧ 0 < hour + minute then "-" else "+") ++ padded 2 hour ++ ":" ++
      padded 2 minute

/-- The time of a day, behind the date. -/
def timeOfDay : Reader String := do
  discard (satisfy fun c ↦ c == 'T' || c == 't' || c == ' ')
  let t ← time
  return "T" ++ t ++ (← optional offset).getD ""

end DateTime

/-- A date, a time, or both. -/
def dateTime : Reader String :=
  (do return (← DateTime.date) ++ (← optional DateTime.timeOfDay).getD "") <|> DateTime.time

end KernelCall.Toml
