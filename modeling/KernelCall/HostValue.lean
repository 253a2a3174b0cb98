import KernelCall.KernelType.Basic

/-!
# Host values

The values a host passes to a call. A dictionary is the only value with parts of its own; every
other value binds as a whole. The kind of a value selects the marshall that carries it.
-/

namespace KernelCall

/-- A buffer of elements in host memory. -/
structure BufferValue where
  element : KernelType
  extents : List Nat
  writable : Bool := false
  deriving DecidableEq, Repr

/-- A texture. Its size lists one extent per dimension, outermost first. -/
structure TextureValue where
  texel : KernelType
  dims : Nat
  size : List Nat
  writable : Bool := false
  deriving DecidableEq, Repr

/-- A value on the host's side. -/
inductive HostValue where
  | int (value : Int)
  | float (value : Float)
  | bool (value : Bool)
  | vector (scalar : Scalar) (components : List Float)
  | valueRef (inner : HostValue)
  | diffPair (primal grad : Float) (needsGrad : Bool)
  | buffer (buffer : BufferValue)
  | diffBuffer (buffer : BufferValue) (needsGrad : Bool)
  | texture (texture : TextureValue)
  | dict (entries : List (String × HostValue))
  deriving Repr, Inhabited

/-- The kind of a host value. -/
inductive HostKind where
  | int
  | float
  | bool
  | vector
  | valueRef
  | diffPair
  | buffer
  | diffBuffer
  | texture
  | dict
  deriving DecidableEq, Repr

namespace HostKind

def name : HostKind → String
  | int => "int"
  | float => "float"
  | bool => "bool"
  | vector => "vector"
  | valueRef => "ValueRef"
  | diffPair => "DiffPair"
  | buffer => "NDBuffer"
  | diffBuffer => "NDDifferentiableBuffer"
  | texture => "Texture"
  | dict => "dict"

/-- Every kind. -/
def all : List HostKind :=
  [int, float, bool, vector, valueRef, diffPair, buffer, diffBuffer, texture, dict]

def ofName? (name : String) : Option HostKind := all.find? (·.name == name)

theorem ofName?_name (k : HostKind) : ofName? k.name = some k := by
  cases k <;> decide

end HostKind

namespace HostValue

def kind : HostValue → HostKind
  | int _ => .int
  | float _ => .float
  | bool _ => .bool
  | vector .. => .vector
  | valueRef _ => .valueRef
  | diffPair .. => .diffPair
  | buffer _ => .buffer
  | diffBuffer .. => .diffBuffer
  | texture _ => .texture
  | dict _ => .dict

/-- The kernel type of a plain number or vector. -/
def plainType? : HostValue → Option KernelType
  | int _ => some (.scalar .int)
  | float _ => some (.scalar .float)
  | bool _ => some (.scalar .bool)
  | vector s components => some (.vector s components.length)
  | _ => none

end HostValue

end KernelCall
