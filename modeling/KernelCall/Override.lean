import KernelCall.HostValue
import KernelCall.Mapping

/-!
# Vectorization overrides

By default a call decides by itself which dimensions of an argument become dispatch axes. A caller
can pin that choice: name the axes, or name the type an invocation receives, as a kernel type or
as the kind of a host value. A dictionary is overridden field by field; the key `$type` pins the
type of the dictionary itself.
-/

namespace KernelCall

/-- A choice made for one variable. -/
inductive Pin where
  /-- The axes its outermost dimensions run along. -/
  | axes (axes : List Nat)
  | type (type : KernelType)
  /-- A type that is looked up by name when the override is applied. -/
  | typeName (name : String)
  /-- The kernel type that a kind of host value stands for. -/
  | hostKind (kind : HostKind)
  deriving DecidableEq, Repr

namespace Pin

def isAxes : Pin → Bool
  | axes _ => true
  | _ => false

def text : Pin → String
  | axes l => (Mapping.onto l).text
  | type t => t.name
  | typeName name => name
  | hostKind kind => "host:" ++ kind.name

end Pin

/-- What a caller asks for one argument. -/
inductive Override where
  | pin (pin : Pin)
  | fields (entries : List (String × Override))
  deriving Repr, Inhabited

namespace Override

/-- The key of the entry that is meant for a dictionary itself. -/
def containerKey : String := "$type"

mutual

def text : Override → String
  | pin p => p.text
  | fields entries => "\x7b" ++ entriesText entries ++ "\x7d"

/-- The entries of a field override, separated by commas. -/
def entriesText : List (String × Override) → String
  | [] => ""
  | [(key, o)] => key ++ ": " ++ o.text
  | (key, o) :: entries => key ++ ": " ++ o.text ++ ", " ++ entriesText entries

end

end Override

/-- The overrides of one call. -/
structure Vectorization where
  args : List Override := []
  kwargs : List (String × Override) := []
  deriving Repr, Inhabited

def Vectorization.isEmpty (v : Vectorization) : Bool :=
  v.args.isEmpty && v.kwargs.isEmpty

end KernelCall
