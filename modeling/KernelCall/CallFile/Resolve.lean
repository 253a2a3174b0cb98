import KernelCall.Call.Build
import KernelCall.CallFile.Read

/-!
# Resolving names

The names in a call file are looked up: first those in the structs, each of which may use the ones
before it, then those of the function, the arguments and the overrides. The first name that is not
known ends it.
-/

namespace KernelCall

namespace CallFile

/-- A name in a call file that stands for nothing. -/
inductive Error where
  | unknownType (name : String)
  | unknownScalar (name : String)
  | unknownModifier (modifier parameter : String)
  | unknownHostKind (name : String)
  deriving DecidableEq, Repr

def Error.message : Error → String
  | unknownType name => "unknown type '" ++ name ++ "'"
  | unknownScalar name => "unknown scalar type '" ++ name ++ "'"
  | unknownModifier modifier parameter =>
    "unknown modifier '" ++ modifier ++ "' on parameter '" ++ parameter ++ "'"
  | unknownHostKind name => "unknown host type '" ++ name ++ "'"

/-- The type of a given name. -/
def findType (layout : Layout) (name : String) : Except Error KernelType :=
  match layout.find? name with
  | some t => .ok t
  | none => .error (.unknownType name)

def StructDeclaration.resolve (layout : Layout) (d : StructDeclaration) :
    Except Error KernelType := do
  let fields ← d.fields.mapM fun (name, type) ↦ do return (name, ← findType layout type)
  return .struct d.name fields d.differentiable

def ParameterDeclaration.resolve (layout : Layout) (d : ParameterDeclaration) :
    Except Error Parameter := do
  let type ← findType layout d.type
  let modifiers ← d.modifiers.mapM fun name ↦
    match Modifier.ofName? name with
    | some m => Except.ok m
    | none => .error (.unknownModifier name d.name)
  return { name := d.name, type, modifiers := Modifiers.ofList modifiers }

def FunctionDeclaration.resolve (layout : Layout) (d : FunctionDeclaration) :
    Except Error Function := do
  let params ← d.params.mapM (·.resolve layout)
  let returnType ← d.returnType?.mapM (findType layout)
  let receiverType ← d.receiverType?.mapM (findType layout)
  return { name := d.name, params, returnType, receiverType, differentiable := d.differentiable }

namespace HostLiteral

mutual

/-- The host value that is written. -/
def resolve (layout : Layout) : HostLiteral → Except Error HostValue
  | bool b => .ok (.bool b)
  | int i => .ok (.int i)
  | float x => .ok (.float x)
  | list xs => .ok (.vector .float xs)
  | vector scalar xs =>
    match Scalar.ofName? scalar with
    | some s => .ok (.vector s xs)
    | none => .error (.unknownScalar scalar)
  | valueRef inner => HostValue.valueRef <$> resolve layout inner
  | diffPair primal grad needsGrad => .ok (.diffPair primal grad needsGrad)
  | buffer element extents writable grad? => do
    let b : BufferValue := { element := ← findType layout element, extents, writable }
    match grad? with
    | some needsGrad => return .diffBuffer b needsGrad
    | none => return .buffer b
  | texture texel size writable => do
    return .texture { texel := ← findType layout texel, dims := size.length, size, writable }
  | dict entries => HostValue.dict <$> resolveEntries layout entries

def resolveEntries (layout : Layout) :
    List (String × HostLiteral) → Except Error (List (String × HostValue))
  | [] => .ok []
  | (key, l) :: entries => do
    return (key, ← resolve layout l) :: (← resolveEntries layout entries)

end

end HostLiteral

namespace OverrideLiteral

/-- What stands in front of the kind of a host value. -/
def hostMark : String := "host:"

/-- The choice that a name makes. -/
def pin (name : String) : Except Error Pin :=
  match hostMark.toList.isPrefixOf? name.toList with
  | none => .ok (.typeName name)
  | some kind =>
    match HostKind.ofName? (String.ofList kind) with
    | some k => .ok (.hostKind k)
    | none => .error (.unknownHostKind (String.ofList kind))

mutual

/-- The override that is written. -/
def resolve : OverrideLiteral → Except Error Override
  | axes l => .ok (.pin (.axes l))
  | name s => Override.pin <$> pin s
  | fields entries => Override.fields <$> resolveEntries entries

def resolveEntries :
    List (String × OverrideLiteral) → Except Error (List (String × Override))
  | [] => .ok []
  | (key, l) :: entries => do return (key, ← resolve l) :: (← resolveEntries entries)

end

end OverrideLiteral

/-- The layout of the kernel module. -/
def layout (file : CallFile) : Except Error Layout :=
  file.structs.foldlM (fun l d ↦ return l.register (← d.resolve l)) Layout.standard

def arguments (layout : Layout) (file : CallFile) : Except Error Arguments := do
  let args ← file.args.mapM (·.resolve layout)
  let kwargs ← HostLiteral.resolveEntries layout file.kwargs
  return { args, kwargs }

def vectorization (file : CallFile) : Except Error Vectorization := do
  let args ← file.overrides.mapM (·.resolve)
  let kwargs ← OverrideLiteral.resolveEntries file.keywordOverrides
  return { args, kwargs }

end CallFile

/-- A call of a function with all that it takes to build it. -/
structure Request where
  layout : Layout
  function : Function
  arguments : Arguments
  vectorization : Vectorization

namespace Request

/-- The request in a call file. -/
def ofCallFile (file : CallFile) : Except CallFile.Error Request := do
  let layout ← file.layout
  let function ← file.function.resolve layout
  let arguments ← file.arguments layout
  let vectorization ← file.vectorization
  return { layout, function, arguments, vectorization }

/-- Builds the call with the built-in marshalls. -/
def build (r : Request) (settings : Settings) : Except BindError BuiltCall :=
  Call.build ⟨r.layout, .builtin⟩ settings r.function r.arguments r.vectorization

/-- The text that an error's report points into: the description of the call as far as it is bound,
or else only the name of the function. -/
def reportText (r : Request) : String :=
  match Call.ofArguments .builtin r.arguments with
  | .ok c => (c.bind r.function).state.description
  | .error _ => r.function.name ++ "(...)\n"

end Request

end KernelCall
