import KernelCall.KernelType.Basic
import KernelCall.Modifiers

/-!
# Kernel functions

One overload of a kernel function: its parameters in order, the type it returns and, for a member
function, the type of its receiver.
-/

namespace KernelCall

/-- A formal parameter. -/
structure Parameter where
  name : String
  type : KernelType
  modifiers : Modifiers := .none
  deriving DecidableEq, Repr

/-- A kernel function. -/
structure Function where
  name : String
  params : List Parameter := []
  returnType : Option KernelType := none
  receiverType : Option KernelType := none
  differentiable : Bool := false
  deriving DecidableEq, Repr

namespace Function

/-- The position of the first parameter of a given name. -/
def paramIndex? (f : Function) (name : String) : Option Nat :=
  f.params.findIdx? (·.name == name)

/-- The first parameter of a given name, with its position. -/
def param? (f : Function) (name : String) : Option (Nat × Parameter) := do
  let index ← f.paramIndex? name
  return (index, ← f.params[index]?)

end Function

end KernelCall
