import KernelCall.Text.Blank

/-!
# Lines

A text is a sequence of lines that end in a newline; the last one may lack it. A carriage return in
front of the newline belongs to the line's end.
-/

namespace KernelCall.Text

/-- Removes a carriage return from the end. -/
def dropReturn (cs : List Char) : List Char :=
  if cs.getLast? = some '\r' then cs.dropLast else cs

/-- The lines of a text, `line` being the reversed beginning of the first. -/
def linesAfter (line : List Char) : List Char → List (List Char)
  | [] => if line.isEmpty then [] else [line.reverse]
  | '\n' :: cs => dropReturn line.reverse :: linesAfter [] cs
  | c :: cs => linesAfter (c :: line) cs

/-- The lines of a text without their ends. -/
def lines (cs : List Char) : List (List Char) :=
  linesAfter [] cs

/-- Whether a line has nothing but blanks. -/
def isBlankLine (line : List Char) : Bool :=
  line.all isBlank

end KernelCall.Text
