import KernelCall.Access
import KernelCall.Function
import KernelCall.Marshall.Basic
import KernelCall.Override

/-!
# Bound variables

An argument of a call is a tree. A dictionary has a node of its own above the trees of its
entries; every other value is a leaf. A node starts with the host's side of the binding and
collects the kernel's side, the mapping and the access permissions as the call is resolved.
-/

namespace KernelCall

/-- What a node is bound to on the kernel's side. -/
structure Target where
  type : KernelType
  modifiers : Modifiers := .none
  deriving DecidableEq, Repr

/-- Everything known of one node. -/
structure Node where
  /-- Key, keyword or parameter name; also the variable's identifier in generated code. -/
  name : String
  /-- The names from the root, joined by dots. -/
  path : String
  marshall : Marshall
  target? : Option Target := none
  /-- The parameter that a root is bound to. -/
  paramIndex? : Option Nat := none
  mapping : Mapping := .unresolved
  /-- The type a single kernel invocation receives. -/
  vectorType? : Option KernelType := none
  /-- The override applied to the node itself. -/
  pin? : Option Pin := none
  /-- The dispatch dimensions the node takes part in. -/
  dimensionality? : Option Nat := none
  differentiable : Bool := false
  access : AccessPair := .untouched
  deriving DecidableEq, Repr

namespace Node

/-- A node that is not bound to anything is read. -/
def direction (n : Node) : Direction :=
  match n.target? with
  | some target => target.modifiers.direction
  | none => .input

def noDiff (n : Node) : Bool :=
  match n.target? with
  | some target => target.modifiers.noDiff
  | none => false

end Node

/-- A variable of a call: a leaf, or a dictionary with the variables of its entries. -/
inductive Variable where
  | leaf (node : Node)
  | dict (node : Node) (fields : List Variable)
  deriving Repr

namespace Variable

/-- The node at the root. -/
def node : Variable → Node
  | leaf n => n
  | dict n _ => n

/-- The variables directly below; none for a leaf. -/
def fields : Variable → List Variable
  | leaf _ => []
  | dict _ fs => fs

def isLeaf : Variable → Bool
  | leaf _ => true
  | dict .. => false

@[simp] theorem node_leaf (n : Node) : (leaf n).node = n := rfl

@[simp] theorem node_dict (n : Node) (fs : List Variable) : (dict n fs).node = n := rfl

abbrev name (v : Variable) : String := v.node.name

abbrev path (v : Variable) : String := v.node.path

/-- Changes the node at the root. -/
def mapNode (f : Node → Node) : Variable → Variable
  | leaf n => leaf (f n)
  | dict n fs => dict (f n) fs

@[simp] theorem node_mapNode (f : Node → Node) (v : Variable) : (v.mapNode f).node = f v.node := by
  cases v <;> rfl

/-- The field of a given name. -/
def field? (v : Variable) (name : String) : Option Variable :=
  v.fields.find? (·.name == name)

/-- Descends along the names of fields. -/
def descend? (v : Variable) : List String → Option Variable
  | [] => some v
  | name :: names => do (← v.field? name).descend? names

mutual

/-- The leaves of a variable, from left to right. -/
def leaves : Variable → List Node
  | leaf n => [n]
  | dict _ fs => leavesOf fs

def leavesOf : List Variable → List Node
  | [] => []
  | v :: vs => v.leaves ++ leavesOf vs

end

private theorem leavesOf_eq_flatMap (vs : List Variable) : leavesOf vs = vs.flatMap leaves := by
  induction vs with
  | nil => rfl
  | cons v vs ih => rw [leavesOf, ih, List.flatMap_cons]

@[simp] theorem leaves_leaf (n : Node) : (leaf n).leaves = [n] := rfl

@[simp] theorem leaves_dict (n : Node) (fs : List Variable) :
    (dict n fs).leaves = fs.flatMap leaves := leavesOf_eq_flatMap fs

mutual

/-- All nodes of a variable, a dictionary before its fields. -/
def nodes : Variable → List Node
  | leaf n => [n]
  | dict n fs => n :: nodesOf fs

def nodesOf : List Variable → List Node
  | [] => []
  | v :: vs => v.nodes ++ nodesOf vs

end

private theorem nodesOf_eq_flatMap (vs : List Variable) : nodesOf vs = vs.flatMap nodes := by
  induction vs with
  | nil => rfl
  | cons v vs ih => rw [nodesOf, ih, List.flatMap_cons]

@[simp] theorem nodes_leaf (n : Node) : (leaf n).nodes = [n] := rfl

@[simp] theorem nodes_dict (n : Node) (fs : List Variable) :
    (dict n fs).nodes = n :: fs.flatMap nodes := congrArg (n :: ·) (nodesOf_eq_flatMap fs)

end Variable

end KernelCall
