import KernelCall.Progress
import KernelCall.Variable.Basic

/-!
# Calls

A call has positional and keyword variables. Two keywords are reserved: `_this` passes the
receiver of a member function, and `_result` receives the returned value.
-/

namespace KernelCall

/-- The keyword of the receiver. -/
def receiverKeyword : String := "_this"

/-- The keyword of the returned value. -/
def resultKeyword : String := "_result"

/-- Whether a keyword is reserved. -/
def isReserved (keyword : String) : Bool :=
  keyword == receiverKeyword || keyword == resultKeyword

/-- The host's arguments of one call. -/
structure Arguments where
  args : List HostValue := []
  kwargs : List (String × HostValue) := []
  deriving Repr, Inhabited

/-- A call and, once it is bound, the function it calls. -/
structure Call where
  args : List Variable := []
  kwargs : List Variable := []
  function? : Option Function := none
  deriving Repr

namespace Call

/-- The variables that stand for arguments, positional ones first. -/
def roots (c : Call) : List Variable := c.args ++ c.kwargs

/-- The keyword variable of a given name. -/
def kwarg? (c : Call) (name : String) : Option Variable :=
  c.kwargs.find? (·.name == name)

/-- The leaves of the call in order. -/
def leaves (c : Call) : List Node := c.roots.flatMap Variable.leaves

/-- All nodes of the call in order. -/
def nodes (c : Call) : List Node := c.roots.flatMap Variable.nodes

/-- Whether the function that is called has derivatives. -/
def differentiable (c : Call) : Bool :=
  match c.function? with
  | some f => f.differentiable
  | none => false

/-- Number of keyword variables that stand for parameters. -/
def keywordArity (c : Call) : Nat :=
  c.kwargs.countP (!isReserved ·.name)

/-- Number of variables that stand for parameters. -/
def arity (c : Call) : Nat := c.args.length + c.keywordArity

/-- Whether a positional variable lacks a vector type. -/
def hasImplicitTypes (c : Call) : Bool :=
  c.args.any (·.node.vectorType?.isNone)

/-- Whether a positional variable lacks a mapping. -/
def hasImplicitMappings (c : Call) : Bool :=
  c.args.any (!·.node.mapping.isResolved)

/-- The rank of the dispatch: the greatest dimensionality of any variable. -/
def gridRank (c : Call) : Nat :=
  (c.roots.filterMap (·.node.dimensionality?)).max?.getD 0

/-- Runs a pass over all variables in order. -/
def traverse (c : Call) (f : Variable → Progress Variable) : Progress Call :=
  (Progress.traverse f c.args).andThen (fun args ↦ { c with args }) fun args ↦
    (Progress.traverse f c.kwargs).map fun kwargs ↦ { c with args, kwargs }

end Call

end KernelCall
