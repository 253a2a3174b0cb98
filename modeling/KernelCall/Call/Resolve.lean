import KernelCall.Call.Basic
import KernelCall.Fault

/-!
# Resolving types and dimensionalities

Every variable that is not pinned receives the type its marshall resolves for the parameter it is
bound to, and every variable learns how many dispatch dimensions it takes part in. A dictionary
takes part in as many as the field with the most. No rank of the dispatch is needed yet: it follows
from the result.

The returned value is special. Nothing flows in from it, so it has the type the function returns.
-/

namespace KernelCall

namespace Node

/-- The kernel type a node is bound to. -/
def boundType (n : Node) : Except BindError KernelType :=
  match n.target? with
  | some target => .ok target.type
  | none => .error (Fault.unboundVariable.blame n.path)

/-- An answer of the node's marshall. -/
def ask (n : Node) {α : Type} : Except MarshallError α → Except BindError α
  | .ok a => .ok a
  | .error e => .error ((Fault.marshall e).blame n.path)

/-- The type that the marshall resolves for the bound type. -/
def resolvedType (n : Node) : Except BindError KernelType := do
  n.ask (n.marshall.resolve (← n.boundType))

/-- Gives a leaf its vector type: what its axes leave of the value, else the type pinned, else the
type its marshall resolves. The returned value is left without. -/
def assignType (n : Node) : Except BindError Node :=
  if n.mapping.isResolved then do
    let t ← n.ask (n.marshall.reduce n.mapping.rank)
    return { n with vectorType? := some t }
  else if n.vectorType?.isNone && n.path != resultKeyword then do
    let t ← n.resolvedType
    return { n with vectorType? := some t }
  else .ok n

/-- Gives a leaf its dimensionality: the extent of its mapping, or what its vector type leaves to
the dispatch. -/
def assignDimensionality (n : Node) : Except BindError Node := do
  let t ← match n.vectorType? with
    | some t => .ok t
    | none => n.boundType
  let d ← if n.mapping.isResolved then .ok n.mapping.extent
    else n.ask (n.marshall.dimensionality t)
  return { n with vectorType? := some t, dimensionality? := some d }

/-- Resolves a leaf. The type stays when the dimensionality cannot be had. -/
def resolve (n : Node) : Progress Node :=
  (Progress.ofExcept n n.assignType).andThen id fun n ↦ .ofExcept n n.assignDimensionality

/-- Resolves a dictionary's own node after its fields. -/
def resolveContainer (fields : List Variable) (n : Node) : Except BindError Node := do
  let d := (fields.filterMap (·.node.dimensionality?)).max?.getD 0
  let t ← match n.vectorType? with
    | some t => .ok t
    | none => n.resolvedType
  return { n with vectorType? := some t, dimensionality? := some d }

end Node

namespace Variable

mutual

/-- Resolves a variable, fields first. -/
def resolve : Variable → Progress Variable
  | leaf n => n.resolve.map leaf
  | dict n fs =>
    (resolveFields fs).andThen (dict n) fun fs ↦
      (Progress.ofExcept n (n.resolveContainer fs)).map (dict · fs)

def resolveFields : List Variable → Progress (List Variable)
  | [] => .done []
  | v :: vs => (resolve v).andThen (· :: vs) fun v ↦ (resolveFields vs).map (v :: ·)

end

theorem resolveFields_eq_traverse (vs : List Variable) :
    resolveFields vs = Progress.traverse resolve vs := by
  induction vs with
  | nil => rfl
  | cons v vs ih => rw [resolveFields, Progress.traverse, ih]

end Variable

/-- Resolves all variables of a call. -/
def Call.resolve (c : Call) : Progress Call := c.traverse Variable.resolve

end KernelCall
