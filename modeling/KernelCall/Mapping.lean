import KernelCall.Text.Count

/-!
# Axis mappings

A dispatch runs over a grid of some rank. The mapping of a variable lists the grid axes that its
own leading dimensions run along, most significant first. Until it has been resolved a variable
has no mapping at all, which is not the same as a mapping onto no axis: the latter is the resolved
mapping of a value that is broadcast to every cell.
-/

namespace KernelCall

/-- The grid axes a variable runs along. -/
inductive Mapping where
  | unresolved
  | onto (axes : List Nat)
  deriving DecidableEq, Repr, Inhabited

namespace Mapping

def isResolved : Mapping → Bool
  | unresolved => false
  | onto _ => true

/-- The axes in order; none for an unresolved mapping. -/
def axes : Mapping → List Nat
  | unresolved => []
  | onto axes => axes

@[simp] theorem axes_unresolved : unresolved.axes = [] := rfl

@[simp] theorem axes_onto (l : List Nat) : (onto l).axes = l := rfl

@[simp] theorem isResolved_onto (l : List Nat) : (onto l).isResolved = true := rfl

@[simp] theorem isResolved_unresolved : unresolved.isResolved = false := rfl

/-- Number of axes. -/
def rank (m : Mapping) : Nat := m.axes.length

/-- The greatest axis, if there is one. -/
def greatest? (m : Mapping) : Option Nat := m.axes.max?

/-- The rank that the mapping asks of a grid, one more than its greatest axis. -/
def extent (m : Mapping) : Nat :=
  match m.greatest? with
  | some axis => Text.succCount axis
  | none => 0

/-- The axes of the first mapping, then those of the second; resolved only if both are. -/
def concat : Mapping → Mapping → Mapping
  | onto a, onto b => onto (a ++ b)
  | _, _ => unresolved

@[simp] theorem concat_onto (a b : List Nat) : concat (onto a) (onto b) = onto (a ++ b) := rfl

/-- Aligns `rank` dimensions with the last axes of a grid of rank `gridRank`. A variable with more
dimensions than the grid has no such mapping. -/
def trailing? (rank gridRank : Nat) : Option Mapping :=
  if rank ≤ gridRank then some (onto (List.range' (gridRank - rank) rank)) else none

/-- Written as a tuple: a single axis is followed by a comma. -/
def text : Mapping → String
  | unresolved => "<invalid>"
  | onto [axis] => "(" ++ toString axis ++ ",)"
  | onto axes => "(" ++ ", ".intercalate (axes.map toString) ++ ")"

end Mapping

end KernelCall
