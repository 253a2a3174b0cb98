import KernelCall.CommandLine.Run

/-!
# The program

The command line on the real file system. What it does is decided by `CommandLine.run`; here
files are read and written and texts are shown.
-/

namespace KernelCall

namespace FileError

/-- The number of an error, whichever sign it is given with. -/
def number (code : UInt32) : UInt32 :=
  min code (0 - code)

/-- An error of the operating system. -/
def ofSystem (e : IO.Error) : FileError :=
  match e with
  | .noFileOrDirectory .. => notFound
  | .inappropriateType _ code details =>
    match number code with
    | 20 => notDirectory
    | 21 => isDirectory
    | n => other s!"{details} (os error {n})"
  | .invalidArgument _ code details =>
    match number code with
    | 36 => nameTooLong
    | n => other s!"{details} (os error {n})"
  | .permissionDenied _ code details => other s!"{details} (os error {number code})"
  | e => other (toString e)

/-- Runs an action and keeps the error of the operating system as a value. -/
def guard {α : Type} (action : IO α) : IO (Except FileError α) := do
  match ← action.toBaseIO with
  | .ok a => return .ok a
  | .error e => return .error (ofSystem e)

end FileError

instance : MonadFiles IO where
  readText path := FileError.guard (IO.FS.readFile path)
  isFile path := do
    let kind ← FileError.guard do return (← (← IO.FS.realPath path).metadata).type
    return match kind with
      | .ok .file => true
      | _ => false
  writeText path text := FileError.guard (IO.FS.writeFile path text)

namespace CommandLine

/-- What an outcome shows on the standard error. -/
def Outcome.complaint (o : Outcome) : List String :=
  match o with
  | failed (.unbuilt r) => r.lines
  | failed f => f.message?.toList.map ("error: " ++ ·)
  | misused e => ["error: " ++ e.message, "", "For more information, try '--help'."]
  | _ => []

end CommandLine

end KernelCall

open KernelCall

/-- Runs the command line. -/
def main (arguments : List String) : IO UInt32 := do
  let setting? ← IO.getEnv Options.strictVariable
  let outcome ← CommandLine.run arguments setting?
  (← IO.getStdout).putStr outcome.stdout
  let stderr ← IO.getStderr
  stderr.putStr outcome.notice
  outcome.complaint.forM stderr.putStrLn
  return outcome.code.toUInt32
