import KernelCall.CallFile.Resolve
import KernelCall.CommandLine.Invocation
import KernelCall.Options.Search
import KernelCall.Report.Basic

/-!
# Running commands

A command reads a call file, resolves its names and the options, builds the call and shows the part
of the result it was asked for. The options of the call file itself come before those of
configuration files, and a flag may make any of them strict.
-/

namespace KernelCall.CommandLine

/-- Why a command fails. -/
inductive Failure where
  | unreadable (path : String) (error : FileError)
  /-- The call file is no TOML, or not of the right form. -/
  | malformed (path : String)
  | unresolved (error : CallFile.Error)
  | options (error : Options.Error)
  | unbuilt (report : Report)
  | unwritable (path : String) (error : FileError)

/-- The failure in one line, unless it has a report. -/
def Failure.message? : Failure → Option String
  | unreadable path e => some ("cannot read '" ++ path ++ "': " ++ e.text)
  | malformed path => some ("invalid call file '" ++ path ++ "'")
  | unresolved e => some e.message
  | options e => some e.message
  | unbuilt _ => none
  | unwritable path e => some ("cannot write '" ++ path ++ "': " ++ e.text)

/-- How a command line ends. -/
inductive Outcome where
  /-- Text for the standard output. -/
  | printed (text : String)
  /-- Code was written to a file. -/
  | written (path : String) (gridRank : Nat)
  | failed (failure : Failure)
  | misused (error : UsageError)

namespace Outcome

/-- The exit code. -/
def code : Outcome → Nat
  | printed _ | written .. => 0
  | failed _ => 1
  | misused _ => 2

/-- The text on the standard output. -/
def stdout : Outcome → String
  | printed text => text
  | _ => ""

/-- The line that tells of written code. -/
def notice : Outcome → String
  | written path gridRank =>
    "Generated " ++ path ++ " (call dimensionality " ++ toString gridRank ++ ")\n"
  | _ => ""

end Outcome

/-- The name and version of the program. -/
def versionText : String := "kernelbind 0.1.0\n"

def helpText : String :=
  "Bind host arguments to a kernel function and generate its call data\n\n" ++
  "Usage: kernelbind <COMMAND> [OPTIONS] <INPUT>\n\n" ++
  "Commands:\n" ++
  "  gen        Generate call-data code for a call file\n" ++
  "  signature  Print the specialization signature and its hash\n" ++
  "  describe   Print the resolved binding tree\n\n" ++
  "Options:\n" ++
  "  --backward         Resolve derivatives instead of primal evaluation\n" ++
  "  --strict           Reject implicit broadcasts that are neither scalar nor full rank\n" ++
  "  -o, --output PATH  Write the generated code to a file (gen)\n" ++
  "  --full             Show the full hash (signature)\n"

variable {m : Type → Type} [Monad m] [MonadFiles m]

/-- Reads the call file of an invocation. -/
def loadCallFile (path : String) : ExceptT Failure m CallFile := do
  match ← MonadFiles.readText path with
  | .error e => throw (.unreadable path e)
  | .ok text =>
    match CallFile.parse? text with
    | some file => return file
    | none => throw (.malformed path)

/-- The options for a call file. -/
def loadOptions (path : String) (file : CallFile) (setting? : Option String) :
    ExceptT Failure m Options := do
  match file.options? with
  | some o => return o
  | none =>
    match ← Options.resolve ((Path.parent? path).getD ".") setting? with
    | .ok o => return o
    | .error e => throw (.options e)

/-- Builds the call of an invocation. -/
def buildCall (i : Invocation) (setting? : Option String) : ExceptT Failure m BuiltCall := do
  let file ← loadCallFile i.input
  match Request.ofCallFile file with
  | .error e => throw (.unresolved e)
  | .ok r =>
    let o ← loadOptions i.input file setting?
    match r.build { mode := i.mode, strict := o.strict || i.strict } with
    | .ok b => return b
    | .error e => throw (.unbuilt (e.report i.input r.reportText))

/-- The line of a signature. Without `full`, the first 16 digits of its digest are shown. -/
def signatureLine (full : Bool) (c : Call) : String :=
  let digest := c.signatureDigest
  (if full then digest else String.ofList (digest.toList.take 16)) ++ " " ++ c.signature ++ "\n"

/-- The description of a call and its dispatch. -/
def descriptionText (mode : CallMode) (b : BuiltCall) : String :=
  b.call.description ++ "call dimensionality: " ++ toString b.gridRank ++ " (" ++ mode.name ++ ")\n"

/-- Runs a subcommand. -/
def runInvocation (i : Invocation) (setting? : Option String) : ExceptT Failure m Outcome := do
  let b ← buildCall i setting?
  match i.subcommand, i.output? with
  | .gen, none => return .printed b.code
  | .gen, some path =>
    match ← MonadFiles.writeText path b.code with
    | .ok () => return .written path b.gridRank
    | .error e => throw (.unwritable path e)
  | .signature, _ => return .printed (signatureLine i.full b.call)
  | .describe, _ => return .printed (descriptionText i.mode b)

/-- Runs a command line, given the value of the environment variable. -/
def run (arguments : List String) (setting? : Option String) : m Outcome := do
  match read arguments with
  | .error e => return .misused e
  | .ok .help => return .printed helpText
  | .ok .version => return .printed versionText
  | .ok (.run i) =>
    match ← (runInvocation i setting?).run with
    | .ok o => return o
    | .error f => return .failed f

end KernelCall.CommandLine
