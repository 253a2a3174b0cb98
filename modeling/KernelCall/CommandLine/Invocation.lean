import KernelCall.Access

/-!
# Invocations

The arguments of the command line. A subcommand comes first, then its call file and its options in
any order; after a double dash everything is a call file. Arguments are read from left to right,
and the first one that is wrong, or asks for help, ends it.
-/

namespace KernelCall.CommandLine

/-- The subcommands. -/
inductive Subcommand where
  | gen
  | signature
  | describe
  deriving DecidableEq, Repr

namespace Subcommand

def name : Subcommand → String
  | gen => "gen"
  | signature => "signature"
  | describe => "describe"

def all : List Subcommand := [gen, signature, describe]

def ofName? (name : String) : Option Subcommand := all.find? (·.name == name)

end Subcommand

/-- What a subcommand is asked to do. -/
structure Invocation where
  subcommand : Subcommand
  input : String
  mode : CallMode
  strict : Bool
  /-- Where generated code goes, if not to the standard output. -/
  output? : Option String
  /-- Whether a signature is shown with its whole digest. -/
  full : Bool
  deriving Repr

/-- What the command line asks for. -/
inductive Demand where
  | run (invocation : Invocation)
  | help
  | version
  deriving Repr

/-- Why a command line is not understood. -/
inductive UsageError where
  | subcommandMissing
  | unknownSubcommand (name : String)
  | unexpected (argument : String)
  | repeated (option : String)
  | valueMissing (option : String)
  | valueUnexpected (option : String)
  | valueEmpty (option : String)
  | inputMissing
  deriving DecidableEq, Repr

def UsageError.message : UsageError → String
  | subcommandMissing => "a subcommand is required"
  | unknownSubcommand name => "unknown subcommand '" ++ name ++ "'"
  | unexpected argument => "unexpected argument '" ++ argument ++ "'"
  | repeated option => "'" ++ option ++ "' is given twice"
  | valueMissing option => "'" ++ option ++ "' needs a value"
  | valueUnexpected option => "'" ++ option ++ "' takes no value"
  | valueEmpty option => "the value of '" ++ option ++ "' is empty"
  | inputMissing => "a call file is required"

/-- What has been read of the arguments of a subcommand. -/
structure Draft where
  input? : Option String := none
  output? : Option String := none
  backward : Bool := false
  strict : Bool := false
  full : Bool := false

/-- The options of subcommands, apart from help. -/
inductive Switch where
  | backward
  | strict
  | full
  | output
  deriving DecidableEq, Repr

namespace Switch

def name : Switch → String
  | backward => "--backward"
  | strict => "--strict"
  | full => "--full"
  | output => "--output"

/-- Whether a subcommand has the option. -/
def isOf (c : Subcommand) : Switch → Bool
  | backward | strict => true
  | full => c = .signature
  | output => c = .gen

def all : List Switch := [backward, strict, full, output]

/-- The option that a subcommand has under a long name. -/
def find? (c : Subcommand) (name : String) : Option Switch :=
  all.find? fun s ↦ s.isOf c && s.name == name

end Switch

namespace Draft

/-- Sets a flag, which must not be set before. -/
def setFlag (d : Draft) (s : Switch) : Except UsageError Draft :=
  match s with
  | .backward => if d.backward then .error (.repeated s.name) else .ok { d with backward := true }
  | .strict => if d.strict then .error (.repeated s.name) else .ok { d with strict := true }
  | .full => if d.full then .error (.repeated s.name) else .ok { d with full := true }
  | .output => .error (.valueMissing s.name)

def setOutput (d : Draft) (path : String) : Except UsageError Draft :=
  if path.isEmpty then .error (.valueEmpty Switch.output.name)
  else if d.output?.isSome then .error (.repeated Switch.output.name)
  else .ok { d with output? := some path }

def setInput (d : Draft) (path : String) : Except UsageError Draft :=
  if d.input?.isSome then .error (.unexpected path)
  else if path.isEmpty then .error (.valueEmpty "input")
  else .ok { d with input? := some path }

def finish (d : Draft) (c : Subcommand) : Except UsageError Demand :=
  match d.input? with
  | none => .error .inputMissing
  | some input => .ok (.run {
      subcommand := c, input
      mode := if d.backward then .backward else .forward
      strict := d.strict, output? := d.output?, full := d.full })

end Draft

/-- Whether an argument has the form of an option. A dash alone is a path. -/
def isOption (argument : String) : Bool :=
  argument.startsWith "-" && argument != "-"

/-- A long option apart from the value that follows an equals sign. -/
def splitValue (argument : String) : String × Option String :=
  let cs := argument.toList
  match cs.dropWhile (· != '=') with
  | [] => (argument, none)
  | _ :: value => (String.ofList (cs.takeWhile (· != '=')), some (String.ofList value))

/-- Reads what follows a subcommand. -/
def readOptions (c : Subcommand) (d : Draft) : List String → Except UsageError Demand
  | [] => d.finish c
  | "--" :: arguments => do (← arguments.foldlM Draft.setInput d).finish c
  | argument :: arguments =>
    if argument.startsWith "--" then
      match splitValue argument with
      | ("--help", none) => .ok .help
      | ("--help", some _) => .error (.valueUnexpected "--help")
      | (name, value?) =>
        match Switch.find? c name, value? with
        | none, _ => .error (.unexpected argument)
        | some .output, some value => do readOptions c (← d.setOutput value) arguments
        | some .output, none => takeOutput d arguments
        | some s, none => do readOptions c (← d.setFlag s) arguments
        | some s, some _ => .error (.valueUnexpected s.name)
    else if isOption argument then
      match c, argument.toList.drop 1 with
      | _, 'h' :: _ => .ok .help
      | .gen, ['o'] => takeOutput d arguments
      | .gen, 'o' :: '=' :: value => do
        readOptions c (← d.setOutput (String.ofList value)) arguments
      | .gen, 'o' :: value => do readOptions c (← d.setOutput (String.ofList value)) arguments
      | _, _ => .error (.unexpected argument)
    else do readOptions c (← d.setInput argument) arguments
where
  /-- Takes the next argument for the value of the output option. -/
  takeOutput (d : Draft) : List String → Except UsageError Demand
    | [] => .error (.valueMissing Switch.output.name)
    | value :: arguments =>
      if isOption value then .error (.valueMissing Switch.output.name)
      else do readOptions c (← d.setOutput value) arguments

/-- Whether names lead to the help of a subcommand. -/
def readHelp : List String → Except UsageError Demand
  | [] => .ok .help
  | ["help"] => .ok .help
  | name :: names =>
    if (Subcommand.ofName? name).isNone then .error (.unknownSubcommand name)
    else
      match names with
      | [] => .ok .help
      | name :: _ => .error (.unknownSubcommand name)

/-- Reads the command line. -/
def read : List String → Except UsageError Demand
  | [] => .error .subcommandMissing
  | first :: arguments =>
    if first = "help" then readHelp arguments
    else
      match Subcommand.ofName? first with
      | some c => readOptions c {} arguments
      | none =>
        if first = "--help" then .ok .help
        else if first = "--version" then .ok .version
        else
          match first.toList with
          | '-' :: 'h' :: _ => .ok .help
          | '-' :: 'V' :: _ => .ok .version
          | _ => .error (if isOption first then .unexpected first else .unknownSubcommand first)

end KernelCall.CommandLine
