/-!
# Binding errors

An error of binding names its category, the path of the variable at fault, if there is one, and a
message. Notes and advice may follow.
-/

namespace KernelCall

/-- The categories of binding errors. -/
inductive BindErrorKind where
  | overrideArity
  | malformedOverride
  | bindingLookup
  | strictBroadcasting
  | nonWritableWrite
  | dispatchRank
  | marshall
  deriving DecidableEq, Repr

/-- The category in a few words. -/
def BindErrorKind.label : BindErrorKind → String
  | overrideArity => "override arity"
  | malformedOverride => "malformed override"
  | bindingLookup => "binding lookup"
  | strictBroadcasting => "strict broadcasting"
  | nonWritableWrite => "non-writable write"
  | dispatchRank => "dispatch rank"
  | marshall => "marshall"

/-- A call that cannot be bound. The path is empty when the call as a whole is at fault. -/
structure BindError where
  kind : BindErrorKind
  path : String := ""
  message : String
  notes : List String := []
  help : Option String := none
  deriving DecidableEq, Repr

/-- The category and the message. -/
def BindError.text (e : BindError) : String :=
  e.kind.label ++ ": " ++ e.message

end KernelCall
