import KernelCall.Text.Lines

/-!
# Blocks of generated code

Generated code is written as a list of commands: lines and statements to add, braces to open and
close. A block holds the text so far and its level of indentation, and runs commands one after the
other. What a command writes depends on the block through the level alone, so a list of commands
yields the same lines at every level, each shifted by four columns per level.
-/

namespace KernelCall.Code

/-- One step in the writing of code. -/
inductive Command where
  | line (text : String)
  | statement (text : String)
  /-- Lines that are already formatted; those without text come out empty. -/
  | code (text : String)
  | blankLine
  | openBlock
  | closeBlock
  | openStruct (name : String)
  | closeStruct
  deriving DecidableEq, Repr

namespace Command

/-- Declares `name` with a type. -/
def declare (type name : String) : Command := .statement (type ++ " " ++ name)

def assign (target value : String) : Command := .statement (target ++ " = " ++ value)

/-- Gives a type another name. -/
def typeAlias (name type : String) : Command :=
  .statement ("typealias " ++ name ++ " = " ++ type)

end Command

/-- The text written so far, and the level at which the next line is written. -/
structure Block where
  text : String := ""
  indent : Nat := 0
  deriving DecidableEq, Repr, Inhabited

/-- The spaces in front of a line at a level. -/
def margin (level : Nat) : String :=
  String.join (List.replicate level "    ")

namespace Block

def isEmpty (b : Block) : Bool := b.text.isEmpty

/-- Adds a line at the current level. -/
def addLine (b : Block) (line : String) : Block :=
  { b with text := b.text ++ margin b.indent ++ line ++ "\n" }

/-- Adds an empty line. -/
def addBlankLine (b : Block) : Block :=
  { b with text := b.text ++ "\n" }

def deeper (b : Block) : Block := { b with indent := b.indent + 1 }

/-- The level never falls below the outermost. -/
def shallower (b : Block) : Block := { b with indent := b.indent - 1 }

/-- Carries out a command. -/
def run (b : Block) : Command → Block
  | .line text => b.addLine text
  | .statement text => b.addLine (text ++ ";")
  | .code text => (Text.lines text.toList).foldl (fun b line ↦
      if Text.isBlankLine line then b.addBlankLine else b.addLine (String.ofList line)) b
  | .blankLine => b.addBlankLine
  | .openBlock => (b.addLine "\x7b").deeper
  | .closeBlock => b.shallower.addLine "\x7d"
  | .openStruct name => ((b.addLine ("struct " ++ name)).addLine "\x7b").deeper
  | .closeStruct => b.shallower.addLine "\x7d;"

/-- Carries out commands in order. -/
def runAll (b : Block) (commands : List Command) : Block :=
  commands.foldl run b

@[simp] theorem runAll_nil (b : Block) : b.runAll [] = b := rfl

@[simp] theorem runAll_cons (b : Block) (c : Command) (cs : List Command) :
    b.runAll (c :: cs) = (b.run c).runAll cs := rfl

@[simp] theorem runAll_append (b : Block) (cs ds : List Command) :
    b.runAll (cs ++ ds) = (b.runAll cs).runAll ds :=
  List.foldl_append

end Block

end KernelCall.Code
