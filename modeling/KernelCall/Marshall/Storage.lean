import KernelCall.Code.Pair
import KernelCall.Variable.Basic

/-!
# Storage of leaves

The call data of a leaf is either a single storage type or a struct with a storage type for each
slot. Values without a gradient are stored as the type an invocation receives, containers as
themselves.
-/

namespace KernelCall

/-- A type that stores a value, or part of one, in the call data. -/
inductive Storage where
  | none
  | value (element : KernelType)
  | valueRef (element : KernelType)
  | buffer (element : KernelType) (dims : Nat) (writable : Bool)
  | texture (texel : KernelType) (dims : Nat) (writable : Bool)
  deriving DecidableEq, Repr

namespace Storage

/-- The name of the storage type. -/
def text : Storage → String
  | none => Code.noStorage
  | value e => "ValueType<" ++ e.name ++ ">"
  | valueRef e => "RWValueRef<" ++ e.name ++ ">"
  | buffer e n w =>
    KernelType.accessMark w ++ "NDBuffer<" ++ e.name ++ "," ++ toString n ++ ">"
  | texture e n w =>
    KernelType.accessMark w ++ "Texture" ++ toString n ++ "DType<" ++ e.name ++ ">"

/-- Storage of single values that are accessed in a given way. -/
def ofValue (element : KernelType) : Access → Storage
  | .none => none
  | .read => value element
  | .write | .readWrite => valueRef element

/-- Storage of a buffer that is accessed in a given way. -/
def ofBuffer (b : BufferValue) : Access → Storage
  | .none => none
  | .read => buffer b.element b.extents.length false
  | .write | .readWrite => buffer b.element b.extents.length true

end Storage

/-- How a leaf is stored: in a single storage, or in one for either slot, whose accessors exchange
values of the target type. -/
inductive CallData where
  | single (storage : Storage)
  | pair (primal derivative : Storage) (target : KernelType)
  deriving DecidableEq, Repr

namespace CallData

/-- The storage of a slot. A single storage is that of the primal. -/
def storage : CallData → Slot → Storage
  | single s, .primal => s
  | single _, .derivative => .none
  | pair primal _ _, .primal => primal
  | pair _ derivative _, .derivative => derivative

/-- Whether a slot has accessors. -/
def provides (d : CallData) (slot : Slot) : Bool := d.storage slot != .none

/-- The commands that declare the call data of a leaf. -/
def commands (name : String) : CallData → List Code.Command
  | single storage => [.typeAlias ("_t_" ++ name) storage.text]
  | pair primal derivative target =>
    Code.DifferentialPair.commands {
      name
      primalStorage := primal.text
      derivativeStorage := derivative.text
      primalTarget := target.name
      derivativeTarget := target.differentialName }

end CallData

namespace Node

/-- The vector type of the node, or the marshall's complaint that there is none. -/
def receivedType (n : Node) : Except MarshallError KernelType :=
  match n.vectorType? with
  | some t => .ok t
  | none => .error .vectorTypeUnresolved

/-- How a leaf is stored. A plain buffer has no room for a gradient, and is always there to be read;
a texture is there in any case. -/
def callData (n : Node) : Except MarshallError CallData :=
  match n.marshall with
  | .value _ => return .single (.value (← n.receivedType))
  | .valueRef _ => return .single (.ofValue (← n.receivedType) n.access.primal)
  | .diffPair t _ =>
    return .pair (.ofValue t n.access.primal) (.ofValue t n.access.derivative) (← n.receivedType)
  | .buffer b =>
    if n.access.derivative != .none then .error (.noGradientStorage n.marshall.typeName)
    else .ok (.single (.ofBuffer b (if n.access.primal = .none then .read else n.access.primal)))
  | .diffBuffer b _ =>
    return .pair (.ofBuffer b n.access.primal) (.ofBuffer b n.access.derivative) (← n.receivedType)
  | .texture t => .ok (.single (.texture t.texel t.size.length n.access.primal.writes))
  | .dict => .error (.fieldsMissing n.path)

end Node

end KernelCall
