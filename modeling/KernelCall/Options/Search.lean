import KernelCall.Files.Path
import KernelCall.Options.Basic

/-!
# Search for options

Options come from the nearest configuration file in a directory or above it, then from the
environment. A directory of the file's name is no configuration file.
-/

namespace KernelCall.Options

variable {m : Type → Type} [Monad m] [MonadFiles m]

/-- The name of a configuration file. -/
def fileName : String := "kernelbind.toml"

/-- The first configuration file in a list of directories. -/
def firstFile : List String → m (Option String)
  | [] => return none
  | d :: ds => do
    let path := Path.join d fileName
    if ← MonadFiles.isFile path then return some path
    else firstFile ds

/-- The nearest configuration file in a directory or above it. -/
def find (directory : String) : m (Option String) :=
  firstFile (Path.upward directory)

/-- The options in a configuration file. -/
def load (path : String) : m (Except Error Options) := do
  match ← MonadFiles.readText path with
  | .error e => return .error (.unreadable path e)
  | .ok text =>
    match parse? text with
    | some o => return .ok o
    | none => return .error (.malformed path)

/-- The options that hold in a directory, given the environment variable. -/
def resolve (directory : String) (setting? : Option String) : m (Except Error Options) := do
  match ← find directory with
  | none => return ({} : Options).override setting?
  | some path => return (← load path).bind (·.override setting?)

end KernelCall.Options
