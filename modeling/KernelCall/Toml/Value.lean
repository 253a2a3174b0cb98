/-!
# TOML values

A TOML document is a table. The entries of a table have distinct keys, and their order means
nothing. Of a date or time only its normal form is kept.
-/

namespace KernelCall.Toml

/-- A value of a TOML document. -/
inductive Value where
  | string (value : String)
  | integer (value : Int)
  | float (value : Float)
  | boolean (value : Bool)
  | dateTime (text : String)
  | array (items : List Value)
  | table (entries : List (String × Value))
  deriving Repr, Inhabited

/-- The value under a key. -/
def lookup {α : Type} (key : String) (entries : List (String × α)) : Option α :=
  (entries.find? (·.1 == key)).map (·.2)

end KernelCall.Toml
