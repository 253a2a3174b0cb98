import KernelCall.Report.Span
import KernelCall.Text.Blank

/-!
# Places in a source

The lines of a text into which a report points. They end at any of the vertical separators, a
carriage return and the newline after it being one end, and a text without characters has none.
Offsets count characters. A line is displayed without the blanks at its end and with spaces for
those within it.
-/

namespace KernelCall.Source

/-- Whether a character ends a line. -/
def endsLine (c : Char) : Bool :=
  ('\n' ≤ c && c ≤ '\r') || c == '\u0085' || c == '\u2028' || c == '\u2029'

/-- The lines of a text with their ends, `line` being the reversed beginning of the first. -/
def linesAfter (line : List Char) : List Char → List (List Char)
  | [] => if line.isEmpty then [] else [line.reverse]
  | '\r' :: '\n' :: cs => ('\n' :: '\r' :: line).reverse :: linesAfter [] cs
  | c :: cs =>
    if endsLine c then (c :: line).reverse :: linesAfter [] cs else linesAfter (c :: line) cs

/-- The lines of a text with their ends. -/
def lines (cs : List Char) : List (List Char) :=
  linesAfter [] cs

/-- A character of a text: its line and its column there, both from 0. -/
structure Position where
  line : Nat
  column : Nat
  deriving DecidableEq, Repr

/-- The position of an offset. That of the text's end is on the last line; past it there is none. -/
def position? (offset : Nat) : List (List Char) → Option Position
  | [] => none
  | [l] => if offset ≤ l.length then some ⟨0, offset⟩ else none
  | l :: ls =>
    if offset < l.length then some ⟨0, offset⟩
    else (position? (offset - l.length) ls).map fun p ↦ { p with line := p.line + 1 }

/-- Number of columns from one tab stop to the next. -/
def tabWidth : Nat := 4

/-- What is displayed for a character in a column. A tab reaches to the next tab stop. -/
def displayedChar (column : Nat) (c : Char) : List Char :=
  if c = '\t' then List.replicate (tabWidth - column % tabWidth) ' '
  else if Text.isBlank c then [' ']
  else [c]

/-- What is displayed for characters that begin in a column. -/
def displayed (column : Nat) : List Char → List Char
  | [] => []
  | c :: cs => displayedChar column c ++ displayed (column + 1) cs

/-- What is displayed of a range of a line. A range that does not end within the line is not
drawn. -/
def excerpt (line : List Char) (column length : Nat) : List Char :=
  if column + length ≤ line.length then
    displayed column (((Text.trimRight line).drop column).take length)
  else []

/-- A marked range: where it begins, and what is displayed of it if it lies on one line. -/
structure Mark where
  start : Position
  text? : Option String
  deriving DecidableEq, Repr

/-- Marks a range of offsets, unless it leaves the text. -/
def mark? (text : String) (s : Span) : Option Mark := do
  let ls := lines text.toList
  let start ← position? s.start ls
  let last ← if s.start < s.stop then position? (s.stop - 1) ls else pure start
  if start.line = last.line then
    let marked := excerpt (ls.getD start.line []) start.column (s.stop - s.start)
    return ⟨start, some (String.ofList marked)⟩
  else return ⟨start, none⟩

end KernelCall.Source
