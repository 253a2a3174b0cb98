import KernelCall.Call.Basic
import KernelCall.Fault
import KernelCall.Marshall.Registry

/-!
# Variables of host values

A call starts from the values of its arguments. Each value gets a node with the marshall that the
registry has for it, and a dictionary gets a variable for each entry in order. A dictionary's own
marshall is looked up before its entries are treated, and a repeated key is found before the value
that repeats it is looked at.
-/

namespace KernelCall

/-- The path of a part named `name` under `path`. -/
def subpath (path name : String) : String := path ++ "." ++ name

/-- The marshall for a value, or the error of the variable at `path`. -/
def MarshallRegistry.carry (registry : MarshallRegistry) (path : String) (v : HostValue) :
    Except BindError Marshall :=
  match registry.forValue v with
  | .ok m => .ok m
  | .error e => .error ((Fault.marshall e).blame path)

namespace Variable

mutual

/-- The variable of a value. -/
def ofValue (registry : MarshallRegistry) (path name : String) :
    HostValue → Except BindError Variable
  | .dict entries => do
    let marshall ← registry.carry path (.dict entries)
    let fields ← ofEntries registry path [] entries
    return .dict { name, path, marshall } fields
  | v => do
    let marshall ← registry.carry path v
    return .leaf { name, path, marshall }

/-- The variables of a dictionary's entries, `seen` being the keys before them. -/
def ofEntries (registry : MarshallRegistry) (path : String) (seen : List String) :
    List (String × HostValue) → Except BindError (List Variable)
  | [] => .ok []
  | (key, v) :: entries =>
    if seen.contains key then .error ((Fault.repeatedField key).blame path)
    else do
      let field ← ofValue registry (subpath path key) key v
      let fields ← ofEntries registry path (key :: seen) entries
      return field :: fields

end

end Variable

namespace Call

/-- The keyword variables of a call, `seen` being the keywords before them. -/
def ofKeywords (registry : MarshallRegistry) (seen : List String) :
    List (String × HostValue) → Except BindError (List Variable)
  | [] => .ok []
  | (name, v) :: kwargs =>
    if seen.contains name then .error ((Fault.repeatedKeyword name).blame name)
    else do
      let v ← Variable.ofValue registry name name v
      let vs ← ofKeywords registry (name :: seen) kwargs
      return v :: vs

/-- The call of the given arguments, not yet bound to a function. Positional variables have no name
before they are bound. -/
def ofArguments (registry : MarshallRegistry) (a : Arguments) : Except BindError Call := do
  let args ← a.args.mapM (Variable.ofValue registry "" "")
  let kwargs ← ofKeywords registry [] a.kwargs
  return { args, kwargs }

end Call

end KernelCall
