import KernelCall.Toml.Value

/-!
# Sections of a document

A document is put together from sections: a header that opens a table, or appends one to an array
of tables, and the entries below it. What may still be added to a table depends on how it came to
be. A table is opened once, before or after the tables within it. Dotted keys make tables that no
header opens again, and lead only through tables that were made by dotted keys or stand between a
header's parts.
-/

namespace KernelCall.Toml

/-- How a table came to be. -/
inductive Origin where
  /-- Opened by a header, or written in braces. -/
  | header
  /-- Implied by a longer header. -/
  | parent
  /-- Implied by a dotted key. -/
  | dotted
  deriving DecidableEq, Repr

/-- A part of a document under construction. -/
inductive Item where
  | value (value : Value)
  | table (origin : Origin) (entries : List (String × Item))
  | tables (tables : List (List (String × Item)))

/-- The entries of a table under construction. -/
abbrev Entries := List (String × Item)

/-- Sets the item under a key. -/
def Entries.set (key : String) (i : Item) : Entries → Entries
  | [] => [(key, i)]
  | e :: es => if e.1 = key then (key, i) :: es else e :: Entries.set key i es

namespace Item

mutual

def toValue : Item → Value
  | value v => v
  | table _ es => .table (toValues es)
  | tables ts => .array (toTables ts)

def toValues : List (String × Item) → List (String × Value)
  | [] => []
  | (key, i) :: es => (key, i.toValue) :: toValues es

def toTables : List (List (String × Item)) → List Value
  | [] => []
  | es :: ts => .table (toValues es) :: toTables ts

end

end Item

namespace Entries

/-- Changes the table at the end of a path. Tables that are missing on the way are made, and of an
array of tables the way leads into the last one. -/
def changeAt (made : Origin) (change : Origin → Entries → Option Entries) (here : Origin) :
    List String → Entries → Option Entries
  | [], es => change here es
  | key :: path, es => do
    let i ← match lookup key es with
      | none => return .set key (.table made (← changeAt made change made path [])) es
      | some i => pure i
    match i with
    | .value _ => none
    | .table o sub =>
      if made = .dotted ∧ o = .header then none
      else return .set key (.table o (← changeAt made change o path sub)) es
    | .tables ts =>
      let last ← ts.getLast?
      return .set key (.tables (ts.dropLast ++ [← changeAt made change .header path last])) es

/-- Adds a value under a dotted key. -/
def add (path : List String) (key : String) (v : Value) : Entries → Option Entries :=
  changeAt .dotted (fun o es ↦
    if path ≠ [] ∧ o ≠ .dotted then none
    else if (lookup key es).isSome then none
    else some (es ++ [(key, .value v)])) .header path

end Entries

/-- A value under a dotted key: the parts in front of its last one, that one, and the value. -/
structure Assignment where
  path : List String
  key : String
  value : Value

/-- Adds values in order. -/
def Entries.addAll (as : List Assignment) (es : Entries) : Option Entries :=
  as.foldlM (fun es a ↦ es.add a.path a.key a.value) es

/-- The table of some values that are written in braces. -/
def Value.ofAssignments? (as : List Assignment) : Option Value :=
  (Entries.addAll as []).map fun es ↦ .table (Item.toValues es)

/-- A header with the entries below it. -/
structure Section where
  /-- Whether the header appends to an array of tables. -/
  appends : Bool
  path : List String
  key : String
  assignments : List Assignment

namespace Entries

/-- Opens the table of a section. -/
def openTable (s : Section) : Entries → Option Entries :=
  changeAt .parent (fun _ es ↦ do
    let start ← match lookup s.key es with
      | none => pure []
      | some (.table .parent sub) => pure sub
      | some _ => none
    return .set s.key (.table .header (← addAll s.assignments start)) es) .header s.path

/-- Appends the table of a section to an array. -/
def appendTable (s : Section) : Entries → Option Entries :=
  changeAt .parent (fun _ es ↦ do
    let ts ← match lookup s.key es with
      | none => pure []
      | some (.tables ts) => pure ts
      | some _ => none
    return .set s.key (.tables (ts ++ [← addAll s.assignments []])) es) .header s.path

def addSection (es : Entries) (s : Section) : Option Entries :=
  if s.appends then es.appendTable s else es.openTable s

end Entries

/-- A document: the entries in front of the first header, and the sections. -/
structure Document where
  assignments : List Assignment
  sections : List Section

/-- The entries of a document, unless its parts contradict each other. -/
def Document.entries? (d : Document) : Option (List (String × Value)) := do
  let es ← Entries.addAll d.assignments []
  let es ← d.sections.foldlM Entries.addSection es
  return Item.toValues es

end KernelCall.Toml
