import KernelCall.Marshall.Error

/-!
# Marshalls

A marshall carries a host value into a kernel. It knows the shape and the element type of the
value, and answers three questions about kernel types:

* `reduce?` names the type that is left when the outermost dimensions become dispatch axes;
* `resolve` names the type a single kernel invocation receives when the value is bound to a
  parameter;
* `dimensionality` counts the dimensions that invocations of a given type leave to the dispatch.

Containers hold elements in dimensions of their own, which are removed all together or not at
all. A dictionary is carried field by field, so its own marshall speaks of structs only.
-/

namespace KernelCall

/-- A container type together with its element type and its own extents. -/
structure Container where
  type : KernelType
  element : KernelType
  extents : List Nat
  deriving DecidableEq, Repr

/-- How a host value enters a kernel. -/
inductive Marshall where
  | value (type : KernelType)
  | valueRef (type : KernelType)
  | diffPair (type : KernelType) (needsGrad : Bool)
  | buffer (buffer : BufferValue)
  | diffBuffer (buffer : BufferValue) (needsGrad : Bool)
  | texture (texture : TextureValue)
  | dict
  deriving DecidableEq, Repr

def BufferValue.container (b : BufferValue) : Container :=
  ⟨.buffer b.element b.extents.length b.writable, b.element, b.extents⟩

def TextureValue.container (t : TextureValue) : Container :=
  ⟨.texture t.texel t.dims t.writable, t.texel, t.size⟩

/-- The dimensions of a value of rank `rank` that are left when it is consumed as `vectorType`. A
resource is consumed whole. -/
def dimensionsLeft (rank : Nat) (vectorType : KernelType) : Except MarshallError Nat :=
  if vectorType.isResource then .ok 0
  else if vectorType.rank ≤ rank then .ok (rank - vectorType.rank)
  else .error (.rankExceeded vectorType rank)

namespace Container

/-- The number of dimensions of the container itself. -/
def dims (c : Container) : Nat := c.extents.length

/-- The extents of the container, then those of an element. -/
def shape (c : Container) : List Nat := c.extents ++ c.element.shape

/-- The type left without the outermost `count` dimensions. -/
def reduce (c : Container) (count : Nat) : Except MarshallError KernelType :=
  if count = 0 then .ok c.type
  else if count < c.dims then .error (.splitContainer count c.dims c.type)
  else match c.element.reduce? (count - c.dims) with
    | some t => .ok t
    | none => .error (.tooManyRemoved count c.type)

/-- A resource parameter takes a container of its own kind, element type and number of dimensions;
one that is written takes only a writable container. -/
def fills (c : Container) (bound : KernelType) : Bool :=
  match c.type, bound with
  | .buffer e n w, .buffer e' n' w' => e == e' && n == n' && (w || !w')
  | .texture e n w, .texture e' n' w' => e == e' && n == n' && (w || !w')
  | _, _ => false

/-- Whether the container consists of values of type `bound`. -/
def holds (c : Container) (bound : KernelType) : Bool :=
  (List.range' c.dims (c.element.rank + 1)).any fun count ↦
    match c.reduce count with
    | .ok t => t == bound
    | .error _ => false

/-- The type an invocation receives from a container bound to a parameter. -/
def resolve (c : Container) (bound : KernelType) : Except MarshallError KernelType :=
  if bound.isInterface then .ok c.element
  else if bound.isResource then
    if c.fills bound then .ok bound else .error (.containerMismatch c.type bound)
  else if c.holds bound then .ok bound
  else .error (.containerMismatch c.type bound)

end Container

namespace Marshall

/-! ## Values -/

/-- The type left of a value without its outermost `count` dimensions. -/
def reduceValue (type : KernelType) (count : Nat) : Except MarshallError KernelType :=
  match type.reduce? count with
  | some t => .ok t
  | none => .error (.tooManyRemoved count type)

/-- A value is received whole or part by part; a scalar is converted to any scalar. -/
def resolveValue (type bound : KernelType) : Except MarshallError KernelType :=
  if bound.isInterface || bound == type then .ok type
  else if (List.range (type.rank + 1)).any fun count ↦ type.reduce? count == some bound then
    .ok bound
  else if type.isScalar && bound.isScalar then .ok bound
  else .error (.valueMismatch type bound)

/-! ## What a marshall knows -/

/-- The name of the host type, in signatures and messages. -/
def typeName : Marshall → String
  | value t => t.name
  | valueRef t => "ValueRef<" ++ t.name ++ ">"
  | diffPair t _ => "DiffPair<" ++ t.name ++ ">"
  | buffer b => b.container.type.name
  | diffBuffer b _ =>
    "NDDifferentiableBuffer<" ++ b.element.name ++ "," ++ toString b.extents.length ++ ">"
  | texture t => t.container.type.name
  | dict => "dict"

/-- The kernel type that the host type stands for in an override. -/
def kernelType : Marshall → KernelType
  | value t | valueRef t | diffPair t _ => t
  | buffer b | diffBuffer b _ => b.container.type
  | texture t => t.container.type
  | dict => .interface "dict"

def elementType : Marshall → KernelType
  | value t | valueRef t | diffPair t _ => t
  | buffer b | diffBuffer b _ => b.element
  | texture t => t.texel
  | dict => .interface "dict"

/-- The extents of the whole value. -/
def declaredShape : Marshall → List Nat
  | value t | valueRef t | diffPair t _ => t.shape
  | buffer b | diffBuffer b _ => b.container.shape
  | texture t => t.container.shape
  | dict => []

/-- Whether a gradient comes with the value. -/
def hasDerivative : Marshall → Bool
  | diffPair _ needsGrad | diffBuffer _ needsGrad => needsGrad
  | dict => true
  | _ => false

def isWritable : Marshall → Bool
  | value _ => false
  | valueRef _ | diffPair .. | dict => true
  | buffer b | diffBuffer b _ => b.writable
  | texture t => t.writable

/-! ## Questions about kernel types -/

/-- The type left without the outermost `count` dimensions. -/
def reduce (m : Marshall) (count : Nat) : Except MarshallError KernelType :=
  match m with
  | value t | valueRef t | diffPair t _ => reduceValue t count
  | buffer b | diffBuffer b _ => b.container.reduce count
  | texture t => t.container.reduce count
  | dict => .error (.dictReduced count)

/-- The type an invocation receives when the value is bound to a parameter of type `bound`. -/
def resolve (m : Marshall) (bound : KernelType) : Except MarshallError KernelType :=
  match m with
  | value t | valueRef t | diffPair t _ => resolveValue t bound
  | buffer b | diffBuffer b _ => b.container.resolve bound
  | texture t => t.container.resolve bound
  | dict => if bound.isStruct then .ok bound else .error (.dictMismatch bound)

/-- The number of dimensions left to the dispatch when invocations receive `vectorType`. -/
def dimensionality (m : Marshall) (vectorType : KernelType) : Except MarshallError Nat :=
  match m with
  | dict => .ok 0
  | m => dimensionsLeft m.declaredShape.length vectorType

end Marshall

end KernelCall
