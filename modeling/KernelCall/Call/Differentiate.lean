import KernelCall.Call.Basic
import KernelCall.Fault

/-!
# Derivatives and access

A variable is differentiable if its parameter does not forbid derivatives, the type it receives has
them and the host's value comes with a gradient. Together with the mode of the call and the
direction of the parameter this decides how generated code touches its slots.
-/

namespace KernelCall

namespace Node

/-- The vector type of a node that has been resolved. -/
def vectorType (n : Node) : Except BindError KernelType :=
  match n.vectorType? with
  | some t => .ok t
  | none => .error ((Fault.marshall .vectorTypeUnresolved).blame n.path)

/-- Decides on derivatives and access of one node. -/
def differentiate (mode : CallMode) (n : Node) : Except BindError Node := do
  let t ← n.vectorType
  let differentiable := !n.noDiff && t.differentiable && n.marshall.hasDerivative
  return { n with differentiable, access := mode.access differentiable n.direction }

end Node

namespace Variable

mutual

/-- Decides on a variable, a dictionary before its fields. -/
def differentiate (mode : CallMode) : Variable → Progress Variable
  | leaf n => (Progress.ofExcept n (n.differentiate mode)).map leaf
  | dict n fs =>
    (Progress.ofExcept n (n.differentiate mode)).andThen (dict · fs) fun n ↦
      (differentiateFields mode fs).map (dict n)

def differentiateFields (mode : CallMode) : List Variable → Progress (List Variable)
  | [] => .done []
  | v :: vs =>
    (differentiate mode v).andThen (· :: vs) fun v ↦ (differentiateFields mode vs).map (v :: ·)

end

theorem differentiateFields_eq_traverse (mode : CallMode) (vs : List Variable) :
    differentiateFields mode vs = Progress.traverse (differentiate mode) vs := by
  induction vs with
  | nil => rfl
  | cons v vs ih => rw [differentiateFields, Progress.traverse, ih]

end Variable

/-- Decides on all variables of a call. -/
def Call.differentiate (mode : CallMode) (c : Call) : Progress Call :=
  c.traverse (Variable.differentiate mode)

end KernelCall
