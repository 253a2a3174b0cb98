import KernelCall.Files.Basic
import KernelCall.Files.Path

/-!
# File trees

A file system as a value: the files and directories below a working directory. Paths start in the
working directory and are followed part by part, each of which must lead on from a directory. What
lies outside has directories alone. Names and paths have a greatest length, counted in bytes.
-/

namespace KernelCall

/-- Files with their texts, and directories, each under its path from the working directory. The
directories that a path goes through need not be listed. -/
structure FileTree where
  entries : List (List String × Option String) := []

namespace FileTree

/-- What a path leads to. -/
inductive Entry where
  | file (text : String)
  | directory
  deriving DecidableEq, Repr

/-- A place in the tree, or one outside. -/
abbrev Place := Option (List String)

/-- Number of bytes that a name has at most. -/
def maxNameSize : Nat := 255

/-- Number of bytes that a path has at most. -/
def maxPathSize : Nat := 4095

/-- The names in a path. -/
def names (path : String) : List String :=
  (Path.parts path.toList).map String.ofList

def entry? (t : FileTree) : Place → Option Entry
  | none => some .directory
  | some p =>
    match t.entries.find? (·.1 == p) with
    | some (_, some text) => some (.file text)
    | some (_, none) => some .directory
    | none =>
      if p.isEmpty || t.entries.any (p.isPrefixOf ·.1) then some .directory else none

/-- Goes on from a place, which must be a directory. -/
def step (t : FileTree) (here : Place) (name : String) : Except FileError Place :=
  match t.entry? here with
  | none => .error .notFound
  | some (.file _) => .error .notDirectory
  | some .directory =>
    if name = "" ∨ name = "." then .ok here
    else if maxNameSize < name.utf8ByteSize then .error .nameTooLong
    else
      match here, name with
      | none, ".." => .ok none
      | some [], ".." => .ok none
      | some p, ".." => .ok (some p.dropLast)
      | none, _ => .error .notFound
      | some p, _ => .ok (some (p ++ [name]))

/-- Where names lead from the working directory, or from the root if the first is empty. -/
def follow (t : FileTree) : List String → Except FileError Place
  | "" :: ns => ns.foldlM t.step none
  | ns => ns.foldlM t.step (some [])

/-- The names to follow for a path. -/
def route (path : String) : Except FileError (List String) :=
  if maxPathSize < path.utf8ByteSize then .error .nameTooLong
  else if path = "" then .error .notFound
  else .ok (names path)

/-- Where a path leads. -/
def walk (t : FileTree) (path : String) : Except FileError Place :=
  route path >>= t.follow

def isFile (t : FileTree) (path : String) : Bool :=
  match t.walk path with
  | .error _ => false
  | .ok p =>
    match t.entry? p with
    | some (.file _) => true
    | _ => false

def read (t : FileTree) (path : String) : Except FileError String := do
  match t.entry? (← t.walk path) with
  | some (.file text) => return text
  | some .directory => throw .isDirectory
  | none => throw .notFound

/-- Puts a text in place of a file, or makes one. A path that ends in a slash is one of a directory,
whether there is one or not. -/
def write (t : FileTree) (path text : String) : Except FileError FileTree := do
  let ns ← route path
  match ns.reverse.dropWhile (· = "") with
  | [] => throw .isDirectory
  | name :: above =>
    let here ← t.follow above.reverse
    match ← t.step here (if ns.getLast? = some "" then "." else name) with
    | none => throw .isDirectory
    | some p =>
      if t.entry? (some p) = some .directory then throw .isDirectory
      else return { entries := (p, some text) :: t.entries.filter (·.1 != p) }

instance : MonadFiles (StateM FileTree) where
  readText path := do return (← get).read path
  isFile path := do return (← get).isFile path
  writeText path text := do
    match (← get).write path text with
    | .ok t =>
      set t
      return .ok ()
    | .error e => return .error e

end FileTree

end KernelCall
