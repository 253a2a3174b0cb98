import KernelCall.Toml.Value

/-!
# Records

Values that are read as records, maps, numbers and lists. A record is a table, or an array of its
fields in order. A date is a table too, with its text under a reserved key.
-/

namespace KernelCall.Toml

/-- The key under which a date has its text. -/
def dateTimeKey : String := "$__toml_private_datetime"

/-- When a record may lack a field. -/
inductive Absence where
  | never
  /-- In a table, but not in an array. -/
  | inTables
  | always
  deriving DecidableEq, Repr

/-- A field of a record. -/
structure Field where
  name : String
  absence : Absence := .never

namespace Field

/-- The fields that the items of an array stand for. Items in excess are passed over. -/
def ofItems? : List Field → List Value → Option (List (String × Value))
  | [], _ => some []
  | f :: fs, v :: vs => do return (f.name, v) :: (← ofItems? fs vs)
  | f :: fs, [] => if f.absence = .always then ofItems? fs [] else none

/-- Whether no field is missing from a table that needs it. -/
def arePresent (fs : List Field) (es : List (String × Value)) : Bool :=
  fs.all fun f ↦ f.absence != .never || (lookup f.name es).isSome

/-- Whether a table has no key beside the fields. -/
def coverAll (fs : List Field) (es : List (String × Value)) : Bool :=
  es.all fun e ↦ fs.any (·.name == e.1)

end Field

namespace Value

/-- The entries of a table. -/
def entries? : Value → Option (List (String × Value))
  | table es => some es
  | dateTime text => some [(dateTimeKey, string text)]
  | _ => none

def items? : Value → Option (List Value)
  | array vs => some vs
  | _ => none

def string? : Value → Option String
  | string s => some s
  | _ => none

def boolean? : Value → Option Bool
  | boolean b => some b
  | _ => none

/-- A number, an integer being rounded to a float. -/
def number? : Value → Option Float
  | float x => some x
  | integer (.ofNat n) => some (Float.ofScientific n false 0)
  | integer (.negSucc n) => some (-Float.ofScientific (n + 1) false 0)
  | _ => none

/-- An integer that is not negative. -/
def count? : Value → Option Nat
  | integer (.ofNat n) => some n
  | _ => none

/-- A list with items of one kind. -/
def list? {α : Type} (read? : Value → Option α) (v : Value) : Option (List α) := do
  (← v.items?).mapM read?

/-- A record that may have other keys beside its fields. -/
def openRecord? (fs : List Field) : Value → Option (List (String × Value))
  | array vs => Field.ofItems? fs vs
  | v => do
    let es ← v.entries?
    if Field.arePresent fs es then some es else none

/-- A record without other keys than its fields. -/
def record? (fs : List Field) (v : Value) : Option (List (String × Value)) := do
  let es ← v.openRecord? fs
  if Field.coverAll fs es then some es else none

end Value

/-- Reads a field, which has a default. -/
def fieldOr {α : Type} (read? : Value → Option α) (otherwise : α) (name : String)
    (es : List (String × Value)) : Option α :=
  match lookup name es with
  | some v => read? v
  | none => some otherwise

/-- Reads a field that must be present. -/
def field? {α : Type} (read? : Value → Option α) (name : String) (es : List (String × Value)) :
    Option α := do
  read? (← lookup name es)

/-- Orders entries by their keys, as texts of Unicode. -/
def byKey {α : Type} (es : List (String × α)) : List (String × α) :=
  es.mergeSort fun a b ↦ !decide (b.1 < a.1)

end KernelCall.Toml
