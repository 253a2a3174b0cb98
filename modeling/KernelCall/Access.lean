import KernelCall.Modifiers

/-!
# Access permissions

A variable has two slots: the primal holds its value, the derivative its gradient. A call mode and
the direction of a parameter decide how generated code touches either slot.
-/

namespace KernelCall

/-- How generated code touches one slot. -/
inductive Access where
  | none
  | read
  | write
  | readWrite
  deriving DecidableEq, Repr, Inhabited

namespace Access

def reads : Access → Bool
  | read | readWrite => true
  | none | write => false

def writes : Access → Bool
  | write | readWrite => true
  | none | read => false

def name : Access → String
  | none => "none"
  | read => "read"
  | write => "write"
  | readWrite => "readwrite"

end Access

/-- The two slots of a variable. -/
inductive Slot where
  | primal
  | derivative
  deriving DecidableEq, Repr

namespace Slot

/-- The slot's name in generated accessors. -/
def name : Slot → String
  | primal => "primal"
  | derivative => "derivative"

/-- Both slots, in the order in which they are declared. -/
def all : List Slot := [primal, derivative]

end Slot

/-- The accesses to both slots of a variable. -/
structure AccessPair where
  primal : Access := .none
  derivative : Access := .none
  deriving DecidableEq, Repr, Inhabited

namespace AccessPair

/-- Neither slot is touched. -/
def untouched : AccessPair := {}

def get (a : AccessPair) : Slot → Access
  | .primal => a.primal
  | .derivative => a.derivative

def text (a : AccessPair) : String :=
  "(" ++ a.primal.name ++ ", " ++ a.derivative.name ++ ")"

end AccessPair

/-- Which evaluation a call performs. -/
inductive CallMode where
  | forward
  | backward
  deriving DecidableEq, Repr, Inhabited

namespace CallMode

def name : CallMode → String
  | forward => "forward"
  | backward => "backward"

/-- The accesses granted to a variable. Forward evaluation touches primals only. Backward
evaluation never writes a primal, reads the ones it needs, and moves gradients against the
direction of the parameter: an input's gradient is written, an output's is read. -/
def access : CallMode → (differentiable : Bool) → Direction → AccessPair
  | forward, _, .input => ⟨.read, .none⟩
  | forward, _, .output => ⟨.write, .none⟩
  | forward, _, .inputOutput => ⟨.readWrite, .none⟩
  | backward, true, .input => ⟨.read, .write⟩
  | backward, true, .output => ⟨.none, .read⟩
  | backward, true, .inputOutput => ⟨.read, .readWrite⟩
  | backward, false, .input => ⟨.read, .none⟩
  | backward, false, .output => ⟨.none, .none⟩
  | backward, false, .inputOutput => ⟨.read, .none⟩

theorem backward_access_primal_writes (differentiable : Bool) (d : Direction) :
    (backward.access differentiable d).primal.writes = false := by
  cases differentiable <;> cases d <;> rfl

theorem access_derivative_of_not_differentiable (mode : CallMode) (d : Direction) :
    (mode.access false d).derivative = .none := by
  cases mode <;> cases d <;> rfl

end CallMode

end KernelCall
