import KernelCall.Toml.DateTime
import KernelCall.Toml.Section

/-!
# Documents

The grammar of TOML 1.0 from keys to documents, on top of that of strings, numbers and dates. Arrays
and tables in braces nest at most `maxDepth` deep, and a dotted key has at most as many parts.
-/

namespace KernelCall.Toml

open Reader

/-- The greatest depth of nested values, and the greatest number of parts of a key. -/
def maxDepth : Nat := 79

def isKeyChar (c : Char) : Bool :=
  c.isAlphanum || c == '-' || c == '_'

def bareKey : Reader String := do
  return String.ofList ((← satisfy isKeyChar) :: (← run isKeyChar))

/-- A dotted key, as the parts in front of its last one and that one. -/
def key : Reader (List String × String) := do
  let parts ← separated (char '.') do
    spaces
    let part ← Quotation.basic.line <|> Quotation.literal.line <|> bareKey
    spaces
    return part
  match parts.getLast? with
  | some last => if parts.length ≤ maxDepth then return (parts.dropLast, last) else failure
  | none => failure

def boolean : Reader Bool :=
  (do word "true"; return true) <|> (do word "false"; return false)

/-- A value that holds no others. -/
def simpleValue : Reader Value :=
  Value.string <$> quoted <|> Value.dateTime <$> dateTime <|> Value.float <$> float <|>
    Value.integer <$> integer <|> Value.boolean <$> boolean

/-- A key with its value. -/
def assignment (value : Reader Value) : Reader Assignment := do
  let (path, key) ← key
  char '='
  spaces
  return { path, key, value := ← value }

/-- An array of values. -/
def array (value : Reader Value) : Reader Value := do
  char '['
  let items ← separated (char ',') do
    gap
    let v ← value
    gap
    return v
  if !items.isEmpty then discard (optional (char ','))
  gap
  char ']'
  return .array items

/-- A table in braces. -/
def inlineTable (value : Reader Value) : Reader Value := do
  char '\x7b'
  let entries ← separated (char ',') do
    let a ← assignment value
    spaces
    return a
  spaces
  char '\x7d'
  Value.ofAssignments? entries

/-- A value with at most `depth` levels below it. -/
def value : (depth : Nat) → Reader Value
  | 0 => simpleValue
  | depth + 1 => simpleValue <|> array (value depth) <|> inlineTable (value depth)

/-- Lines that are blank or hold a comment. -/
def blankLines : Reader Unit := do
  discard (many do
    spaces
    discard (optional comment)
    newline)
  spaces
  discard (optional comment)

def line : Reader Assignment := do
  blankLines
  let a ← assignment (value maxDepth)
  lineEnd
  return a

/-- A header in one pair of brackets or two: whether it appends to an array, and its key. -/
def header : Reader (Bool × List String × String) := do
  blankLines
  let appends ← (do word "[["; return true) <|> (do word "["; return false)
  let key ← key
  word (if appends then "]]" else "]")
  lineEnd
  return (appends, key)

/-- A header with the entries below it. -/
def headedSection : Reader Section := do
  let (appends, path, key) ← header
  return { appends, path, key, assignments := ← many line }

def document : Reader Document := do
  discard (optional (char '\ufeff'))
  let assignments ← many line
  let sections ← many headedSection
  blankLines
  finish
  return { assignments, sections }

/-- The entries of the document that a text holds. -/
def parse? (text : String) : Option (List (String × Value)) := do
  let (d, _) ← document text.toList
  d.entries?

end KernelCall.Toml
