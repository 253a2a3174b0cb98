import KernelCall.BindError
import KernelCall.Marshall.Error
import KernelCall.Override

/-!
# Faults

The reasons for which a call cannot be bound. A fault fixes the category, the wording and the
advice of the error; together with the path of a variable it makes a `BindError`.
-/

namespace KernelCall

/-- Why a pin cannot be applied. -/
inductive PinFault where
  | marshall (e : MarshallError)
  | unknownType (name : String)

def PinFault.message : PinFault → String
  | marshall e => e.message
  | unknownType name => "unknown type '" ++ name ++ "'"

/-- Why a call cannot be bound. -/
inductive Fault where
  -- Overrides and arguments do not match in number or name.
  | positionalOverrides (given args : Nat)
  | keywordOverrides (given kwargs : Nat)
  | unknownKeywordOverride (name : String)
  | keywordOverriddenTwice (name : String)
  -- An override does not fit its variable.
  | overrideOfDict (o : Override)
  | fieldsOfLeaf
  | unknownField (key : String)
  | containerNotTyped (o : Override)
  | pinFailed (reason : PinFault)
  -- A value has no counterpart on the kernel's side.
  | tooManyArguments (function : String) (params given : Nat)
  | notMember (function : String)
  | noReturnValue (function : String)
  | noParameter (function name : String)
  | suppliedTwice (name : String)
  | missingArgument (param function : String)
  | noField (type : KernelType) (name : String)
  | repeatedField (key : String)
  | repeatedKeyword (name : String)
  | unboundVariable
  | unboundCall
  -- A variable does not fit the dispatch, or cannot be carried.
  | partialRank (path : String) (dimensionality gridRank : Nat)
  | rankExceedsGrid (path : String) (dimensionality gridRank : Nat)
  | notWritable (path typeName : String)
  | dimensionalityUnresolved
  | marshall (e : MarshallError)

namespace Fault

def kind : Fault → BindErrorKind
  | positionalOverrides .. | keywordOverrides .. | unknownKeywordOverride _
  | keywordOverriddenTwice _ => .overrideArity
  | overrideOfDict _ | fieldsOfLeaf | unknownField _ | containerNotTyped _ | pinFailed _ =>
    .malformedOverride
  | tooManyArguments .. | notMember _ | noReturnValue _ | noParameter .. | suppliedTwice _
  | missingArgument .. | noField .. | repeatedField _ | repeatedKeyword _ | unboundVariable
  | unboundCall => .bindingLookup
  | partialRank .. => .strictBroadcasting
  | rankExceedsGrid .. => .dispatchRank
  | notWritable .. => .nonWritableWrite
  | dimensionalityUnresolved | marshall _ => .marshall

private def quoted (s : String) : String := "'" ++ s ++ "'"

def message : Fault → String
  | positionalOverrides given args =>
    toString given ++ " positional overrides supplied for " ++ toString args ++
      " positional arguments"
  | keywordOverrides given kwargs =>
    toString given ++ " keyword overrides supplied for " ++ toString kwargs ++
      " keyword arguments"
  | unknownKeywordOverride name => "override for unknown keyword argument " ++ quoted name
  | keywordOverriddenTwice name => "keyword argument " ++ quoted name ++ " overridden twice"
  | overrideOfDict o => "dict argument cannot take override " ++ o.text
  | fieldsOfLeaf => "field overrides given for a value that is not a dict"
  | unknownField key => "override names unknown field " ++ quoted key
  | containerNotTyped o => quoted Override.containerKey ++ " must name a type, got " ++ o.text
  | pinFailed reason => "explicit vectorization failed: " ++ reason.message
  | tooManyArguments function params given =>
    function ++ " takes " ++ toString params ++ " arguments but " ++ toString given ++
      " positional arguments were supplied"
  | notMember function => function ++ " is not a member function"
  | noReturnValue function => function ++ " does not return a value"
  | noParameter function name => function ++ " has no parameter named " ++ quoted name
  | suppliedTwice name => "parameter " ++ quoted name ++ " supplied twice"
  | missingArgument param function =>
    "missing argument for parameter " ++ quoted param ++ " of " ++ function
  | noField type name => "type " ++ type.name ++ " has no field " ++ quoted name
  | repeatedField key => "field " ++ quoted key ++ " appears more than once"
  | repeatedKeyword name => "keyword argument " ++ quoted name ++ " supplied twice"
  | unboundVariable => "variable is not bound to a kernel parameter"
  | unboundCall => "call has not been bound to a kernel function"
  | partialRank path dimensionality gridRank =>
    quoted path ++ " has dimensionality " ++ toString dimensionality ++
      ", which is neither 0 nor the kernel dimensionality " ++ toString gridRank
  | rankExceedsGrid path dimensionality gridRank =>
    quoted path ++ " has " ++ toString dimensionality ++ " dimensions but the dispatch has only " ++
      toString gridRank
  | notWritable path typeName =>
    "cannot write back to " ++ quoted path ++ ": " ++ typeName ++ " is not writable"
  | dimensionalityUnresolved => "dimensionality has not been resolved"
  | marshall e => e.message

/-- What the caller can do about it. -/
def help? : Fault → Option String
  | overrideOfDict _ =>
    some ("map its fields, or use " ++ quoted Override.containerKey ++
      " to override the dict's type")
  | partialRank .. =>
    some "vectorize the argument explicitly or disable strict broadcasting"
  | notWritable .. => some "pass a writable value such as a ValueRef or RW buffer"
  | _ => none

/-- The error of a variable. -/
def blame (fault : Fault) (path : String) : BindError where
  kind := fault.kind
  path := path
  message := fault.message
  help := fault.help?

/-- The error of a call as a whole. -/
def ofCall (fault : Fault) : BindError := fault.blame ""

end Fault

end KernelCall
