/-!
# Readers

A reader takes a value off the front of a text. One that fails leaves the text as it was, so that
another can be tried. Also the blanks, newlines and comments of TOML.
-/

namespace KernelCall.Toml

/-- Reads a value from a text and leaves the rest. -/
abbrev Reader := StateT (List Char) Option

namespace Reader

/-- Reads one character of a class. -/
def satisfy (p : Char → Bool) : Reader Char
  | c :: cs => if p c then some (c, cs) else none
  | [] => none

def char (c : Char) : Reader Unit := do
  discard (satisfy (· == c))

/-- Reads the characters of a word. -/
def word (w : String) : Reader Unit
  | cs => (w.toList.isPrefixOf? cs).map ((), ·)

/-- Reads the longest run of characters of a class. -/
def run (p : Char → Bool) : Reader (List Char)
  | cs => some (cs.span p)

/-- Reads a given number of characters of a class. -/
def exactly (p : Char → Bool) : Nat → Reader (List Char)
  | 0 => pure []
  | n + 1 => do return (← satisfy p) :: (← exactly p n)

/-- Reads values one after the other until there is none, or one takes nothing off the text. -/
def manyFrom {α : Type} (r : Reader α) (cs : List Char) : List α × List Char :=
  match r cs with
  | none => ([], cs)
  | some (a, rest) =>
    if rest.length < cs.length then
      let (as, rest) := manyFrom r rest
      (a :: as, rest)
    else ([], cs)
termination_by cs.length

/-- Reads any number of values. -/
def many {α : Type} (r : Reader α) : Reader (List α)
  | cs => some (manyFrom r cs)

/-- Reads any number of values with separators between them. A separator after the last value is
left in the text. -/
def separated {α : Type} (separator : Reader Unit) (r : Reader α) : Reader (List α) := do
  match ← optional r with
  | none => return []
  | some a => return a :: (← many (do separator; r))

/-- Succeeds at the end of the text. -/
def finish : Reader Unit
  | [] => some ((), [])
  | _ :: _ => none

end Reader

open Reader

/-! ## Blanks and comments -/

/-- Blanks within a line. -/
def isSpace (c : Char) : Bool :=
  c == ' ' || c == '\t'

/-- What may stand in a comment or a literal: everything but control characters, tabs apart. -/
def isText (c : Char) : Bool :=
  c == '\t' || (' ' ≤ c && c != '\x7f')

def spaces : Reader Unit :=
  discard (run isSpace)

def newline : Reader Unit :=
  word "\n" <|> word "\r\n"

def comment : Reader Unit := do
  char '#'
  discard (run isText)

/-- The end of a line, or of the text, with a comment in front. -/
def lineEnd : Reader Unit := do
  spaces
  discard (optional comment)
  newline <|> finish

/-- Blanks, newlines and comments between the parts of an array. -/
def gap : Reader Unit := do
  spaces
  discard (many do
    discard (optional comment)
    newline
    spaces)

end KernelCall.Toml
