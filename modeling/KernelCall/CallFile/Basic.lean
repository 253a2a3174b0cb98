import KernelCall.Options.Basic

/-!
# Call files

What a call file says: a kernel function and the structs it uses, the arguments of one call and the
overrides for them. Types are given by name, and so are the kinds of host values.
-/

namespace KernelCall.CallFile

/-- A struct of the kernel module, with the names of its fields' types. -/
structure StructDeclaration where
  name : String
  differentiable : Bool
  fields : List (String × String)
  deriving Repr

structure ParameterDeclaration where
  name : String
  type : String
  modifiers : List String
  deriving Repr

structure FunctionDeclaration where
  name : String
  returnType? : Option String
  receiverType? : Option String
  differentiable : Bool
  params : List ParameterDeclaration
  deriving Repr

/-- A host value as it is written. -/
inductive HostLiteral where
  | bool (value : Bool)
  | int (value : Int)
  | float (value : Float)
  /-- Numbers in brackets: a vector of floats. -/
  | list (components : List Float)
  | vector (scalar : String) (components : List Float)
  | valueRef (inner : HostLiteral)
  | diffPair (primal grad : Float) (needsGrad : Bool)
  /-- A buffer. With `grad?` it has storage for gradients, in use or not. -/
  | buffer (element : String) (extents : List Nat) (writable : Bool) (grad? : Option Bool)
  | texture (texel : String) (size : List Nat) (writable : Bool)
  | dict (entries : List (String × HostLiteral))
  deriving Repr, Inhabited

/-- An override as it is written. -/
inductive OverrideLiteral where
  | axes (axes : List Nat)
  /-- The name of a type, or of a kind of host value behind `host:`. -/
  | name (name : String)
  | fields (entries : List (String × OverrideLiteral))
  deriving Repr, Inhabited

end CallFile

/-- A call file. Keyword arguments are in the order of their keys. -/
structure CallFile where
  function : CallFile.FunctionDeclaration
  structs : List CallFile.StructDeclaration := []
  args : List CallFile.HostLiteral := []
  kwargs : List (String × CallFile.HostLiteral) := []
  overrides : List CallFile.OverrideLiteral := []
  keywordOverrides : List (String × CallFile.OverrideLiteral) := []
  options? : Option Options := none
  deriving Repr

end KernelCall
