import KernelCall.Call.Align
import KernelCall.Call.Bind
import KernelCall.Call.Emit
import KernelCall.Call.Resolve
import KernelCall.Call.Signature
import KernelCall.Call.Vectorize

/-!
# Building calls

A call is built from a function, arguments and overrides: the arguments are bound, overridden and
resolved, the rank of the dispatch follows, and the call is aligned with it and turned into code.
The first error ends the build.
-/

namespace KernelCall

/-- How calls are built. -/
structure Settings where
  mode : CallMode := .forward
  strict : Bool := false
  deriving DecidableEq, Repr

/-- A call that has been built. -/
structure BuiltCall where
  call : Call
  gridRank : Nat
  code : String
  deriving Repr

namespace Call

/-- Resolves a call as far as it goes without a dispatch. -/
def prepare (lookup : Lookup) (f : Function) (a : Arguments) (v : Vectorization) :
    Except BindError Call := do
  let c ← ofArguments lookup.registry a
  let c ← (c.bind f).toExcept
  let c ← (c.vectorize lookup v).toExcept
  c.resolve.toExcept

/-- Builds a call of a function. -/
def build (lookup : Lookup) (settings : Settings) (f : Function) (a : Arguments)
    (v : Vectorization) : Except BindError BuiltCall := do
  let c ← prepare lookup f a v
  let gridRank := c.gridRank
  let c ← (c.align { rank := gridRank, strict := settings.strict }).toExcept
  let c ← (c.differentiate settings.mode).toExcept
  let m ← c.emit gridRank
  return { call := c, gridRank, code := m.text }

end Call

end KernelCall
