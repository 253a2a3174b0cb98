import KernelCall.Call.Basic
import KernelCall.Fault

/-!
# Aligning with the dispatch

Leaves without a mapping are aligned with the last axes of the dispatch. Where broadcasting is
strict, a leaf that its caller has not pinned must take part in all dispatch dimensions or in none.
Dictionaries have no mapping of their own.
-/

namespace KernelCall

/-- The dispatch that a call is aligned with. -/
structure Dispatch where
  rank : Nat
  strict : Bool := false
  deriving DecidableEq, Repr

/-- Aligns a leaf with the dispatch. -/
def Node.align (dispatch : Dispatch) (n : Node) : Except BindError Node :=
  match n.dimensionality? with
  | none => .error (Fault.dimensionalityUnresolved.blame n.path)
  | some d =>
    if dispatch.strict && n.pin?.isNone && d != 0 && d != dispatch.rank then
      .error ((Fault.partialRank n.path d dispatch.rank).blame n.path)
    else if n.mapping.isResolved then .ok n
    else match Mapping.trailing? d dispatch.rank with
      | some mapping => .ok { n with mapping }
      | none => .error ((Fault.rankExceedsGrid n.path d dispatch.rank).blame n.path)

namespace Variable

mutual

/-- Aligns the leaves of a variable in order. -/
def align (dispatch : Dispatch) : Variable → Progress Variable
  | leaf n => (Progress.ofExcept n (n.align dispatch)).map leaf
  | dict n fs => (alignFields dispatch fs).map (dict n)

def alignFields (dispatch : Dispatch) : List Variable → Progress (List Variable)
  | [] => .done []
  | v :: vs =>
    (align dispatch v).andThen (· :: vs) fun v ↦ (alignFields dispatch vs).map (v :: ·)

end

theorem alignFields_eq_traverse (dispatch : Dispatch) (vs : List Variable) :
    alignFields dispatch vs = Progress.traverse (align dispatch) vs := by
  induction vs with
  | nil => rfl
  | cons v vs ih => rw [alignFields, Progress.traverse, ih]

end Variable

/-- Aligns all variables of a call. -/
def Call.align (dispatch : Dispatch) (c : Call) : Progress Call :=
  c.traverse (Variable.align dispatch)

end KernelCall
