import KernelCall.Files.Basic
import KernelCall.Text.Blank
import KernelCall.Toml.Document
import KernelCall.Toml.Record

/-!
# Binding options

The options of binding are in the `options` table of a configuration file. An environment variable
overrides the file.
-/

namespace KernelCall

/-- Options that hold for every call. -/
structure Options where
  /-- Whether an argument must be constant or span the dispatch. -/
  strict : Bool := false
  deriving DecidableEq, Repr

namespace Options

/-- Reads the table of options. Other keys are passed over. -/
def ofValue? (v : Toml.Value) : Option Options := do
  let es ← v.openRecord? [⟨"strict_broadcasting", .always⟩]
  return { strict := ← Toml.fieldOr (·.boolean?) false "strict_broadcasting" es }

/-- Reads the options from a configuration file's text. -/
def parse? (text : String) : Option Options := do
  Toml.fieldOr ofValue? {} "options" (← Toml.parse? text)

/-- The environment variable that overrides the flag `strict`. -/
def strictVariable : String := "KERNELBIND_STRICT_BROADCASTING"

/-- The flag that a word stands for, upper and lower case being the same. -/
def flag? (word : String) : Option Bool :=
  let word := String.ofList ((Text.trim word.toList).map Char.toLower)
  if word ∈ ["1", "true", "yes", "on"] then some true
  else if word ∈ ["0", "false", "no", "off"] then some false
  else none

/-- Options that cannot be had. -/
inductive Error where
  | unreadable (path : String) (error : FileError)
  /-- The configuration file is no TOML, or not of the right form. -/
  | malformed (path : String)
  /-- The environment variable has a value that is no flag. -/
  | badVariable (value : String)
  deriving DecidableEq, Repr

def Error.message : Error → String
  | unreadable path e => "cannot read '" ++ path ++ "': " ++ e.text
  | malformed path => "invalid configuration in '" ++ path ++ "'"
  | badVariable value => "invalid value '" ++ value ++ "' for " ++ strictVariable

/-- Lets the environment variable override the options, if it is set. -/
def override (o : Options) : (setting? : Option String) → Except Error Options
  | none => .ok o
  | some value =>
    match flag? value with
    | some strict => .ok { o with strict }
    | none => .error (.badVariable value)

end Options

end KernelCall
