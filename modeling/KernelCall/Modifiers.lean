/-!
# Parameter modifiers

A kernel parameter carries a set of modifiers. They fix the direction in which its value travels
and whether derivatives are taken with respect to it.
-/

namespace KernelCall

/-- A modifier that a parameter may carry. -/
inductive Modifier where
  | input
  | output
  | inputOutput
  | noDiff
  deriving DecidableEq, Repr

namespace Modifier

/-- The modifier of a given spelling. -/
def ofName? : String → Option Modifier
  | "in" => some input
  | "out" => some output
  | "inout" => some inputOutput
  | "no_diff" | "nodiff" => some noDiff
  | _ => none

def name : Modifier → String
  | input => "in"
  | output => "out"
  | inputOutput => "inout"
  | noDiff => "no_diff"

theorem ofName?_name (m : Modifier) : ofName? m.name = some m := by
  cases m <;> rfl

/-- Every modifier, in the order in which sets list them. -/
def all : List Modifier := [input, output, inputOutput, noDiff]

end Modifier

/-- The way the value of a parameter travels. -/
inductive Direction where
  | input
  | output
  | inputOutput
  deriving DecidableEq, Repr

/-- The keyword for a direction. -/
def Direction.name : Direction → String
  | input => "in"
  | output => "out"
  | inputOutput => "inout"

/-- A set of modifiers. -/
structure Modifiers where
  input : Bool := false
  output : Bool := false
  inputOutput : Bool := false
  noDiff : Bool := false
  deriving DecidableEq, Repr, Inhabited

namespace Modifiers

def none : Modifiers := {}

def contains (s : Modifiers) : Modifier → Bool
  | .input => s.input
  | .output => s.output
  | .inputOutput => s.inputOutput
  | .noDiff => s.noDiff

def insert (s : Modifiers) : Modifier → Modifiers
  | .input => { s with input := true }
  | .output => { s with output := true }
  | .inputOutput => { s with inputOutput := true }
  | .noDiff => { s with noDiff := true }

theorem contains_insert (s : Modifiers) (a b : Modifier) :
    (s.insert a).contains b = (a == b || s.contains b) := by
  cases a <;> cases b <;> rfl

def ofList (ms : List Modifier) : Modifiers := ms.foldl insert none

/-- The modifiers present, in the order of `Modifier.all`. -/
def toList (s : Modifiers) : List Modifier := Modifier.all.filter s.contains

def union (s t : Modifiers) : Modifiers where
  input := s.input || t.input
  output := s.output || t.output
  inputOutput := s.inputOutput || t.inputOutput
  noDiff := s.noDiff || t.noDiff

theorem contains_union (s t : Modifiers) (m : Modifier) :
    (s.union t).contains m = (s.contains m || t.contains m) := by
  cases m <;> rfl

/-- A parameter that is both read and written travels both ways; without a modifier it is read. -/
def direction (s : Modifiers) : Direction :=
  if (s.input && s.output) || s.inputOutput then .inputOutput
  else if s.output then .output
  else .input

end Modifiers

end KernelCall
