import KernelCall.HostValue

/-!
# Marshall errors

The reasons for which no marshall carries a value, or a marshall cannot answer a question about
types. The wording of all of them is in `MarshallError.message`.
-/

namespace KernelCall

/-- Why a marshall is missing or refuses. -/
inductive MarshallError where
  /-- The registry has nothing for a kind of value. -/
  | unregistered (kind : HostKind)
  /-- A marshall for one kind was asked to carry a value of another. -/
  | unexpected (expected got : HostKind)
  /-- A value that is neither a number nor a vector stands where one is needed. -/
  | notPlain (kind : HostKind)
  | componentCount (count : Nat)
  | textureSize (dims : Nat) (size : List Nat)
  /-- The kernel type of a kind depends on the value, and there is none. -/
  | valueNeeded (kind : HostKind)
  | dictAsOverride
  /-- Some, but not all, dimensions of a container would go. -/
  | splitContainer (count dims : Nat) (container : KernelType)
  | tooManyRemoved (count : Nat) (type : KernelType)
  | containerMismatch (container bound : KernelType)
  | valueMismatch (type bound : KernelType)
  /-- The vector type has more dimensions than the value. -/
  | rankExceeded (vectorType : KernelType) (rank : Nat)
  | dictReduced (count : Nat)
  | dictMismatch (bound : KernelType)
  | vectorTypeUnresolved
  | noGradientStorage (typeName : String)
  /-- A dictionary without fields of its own was to be stored as one value. -/
  | fieldsMissing (path : String)
  /-- A registered factory refused, in its own words. -/
  | refused (message : String)

namespace MarshallError

/-- A list of extents in square brackets. -/
private def bracketed (extents : List Nat) : String :=
  "[" ++ ", ".intercalate (extents.map toString) ++ "]"

/-- The kind with its indefinite article. -/
private def withArticle (kind : HostKind) : String :=
  match kind with
  | .buffer | .diffBuffer => "an " ++ kind.name
  | _ => "a " ++ kind.name

/-- What the type of a container's elements is called. -/
private def elementWord : HostKind → String
  | .texture => "texel"
  | _ => "element"

def message : MarshallError → String
  | unregistered kind => "no marshall registered for " ++ kind.name
  | unexpected expected got => "expected " ++ withArticle expected ++ ", got " ++ got.name
  | notPlain kind => kind.name ++ " is not a plain value"
  | componentCount count => "vectors must have 1 to 4 components, got " ++ toString count
  | textureSize dims size =>
    "unsupported " ++ toString dims ++ "-dimensional texture of size " ++ bracketed size
  | valueNeeded kind =>
    kind.name ++ " host type needs a value to determine its " ++ elementWord kind ++ " type"
  | dictAsOverride => "dict host type cannot be used as a vectorization override"
  | splitContainer count dims container =>
    "cannot remove " ++ toString count ++ " of the " ++ toString dims ++ " dimensions of " ++
      container.name
  | tooManyRemoved count type =>
    "cannot remove " ++ toString count ++ " dimensions from " ++ type.name
  | containerMismatch container bound =>
    "cannot bind " ++ container.name ++ " to parameter of type " ++ bound.name
  | valueMismatch type bound =>
    "cannot bind value of type " ++ type.name ++ " to parameter of type " ++ bound.name
  | rankExceeded vectorType rank =>
    vectorType.name ++ " has more dimensions than the " ++ toString rank ++ "-dimensional value"
  | dictReduced count =>
    "cannot reduce a dict by " ++ toString count ++ " dimensions; vectorize its fields instead"
  | dictMismatch bound => "a dict can only bind to a struct, not " ++ bound.name
  | vectorTypeUnresolved => "vector type has not been resolved"
  | noGradientStorage typeName =>
    typeName ++ " has no gradient storage for derivative access"
  | fieldsMissing path => "dict `" ++ path ++ "` must be generated from its fields"
  | refused message => message

end MarshallError

end KernelCall
