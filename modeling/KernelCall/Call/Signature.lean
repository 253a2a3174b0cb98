import KernelCall.Call.Basic
import KernelCall.Digest.Blake3

/-!
# Signatures and descriptions

The signature of a call is what a cache of specialized kernels looks it up by: the function, and
for each variable its path, its host type and the override applied to it. Nothing that follows
from these is part of it.

The description has a line for each variable with what has been resolved so far. Fields are
indented below their dictionary, and a bound call starts with the name of the function.
-/

namespace KernelCall

namespace Node

def signature (n : Node) : String :=
  n.path ++ ":" ++ n.marshall.typeName ++
    match n.pin? with
    | some p => "=" ++ p.text
    | none => ""

/-- What is known of a node, as far as it is resolved. -/
def description (n : Node) : String :=
  n.path ++ ": " ++ n.marshall.typeName ++
    (match n.vectorType? with
      | some t => " -> " ++ t.name
      | none => "") ++
    (if n.mapping.isResolved then " " ++ n.mapping.text else "") ++
    (if n.differentiable then " diff" else "") ++
    (if n.access = .untouched then "" else " " ++ n.access.text)

end Node

namespace Variable

mutual

def signature : Variable → String
  | leaf n => n.signature
  | dict n fs => n.signature ++ "\x7b" ++ fieldsSignature fs ++ "\x7d"

/-- The signatures of fields, separated by semicolons. -/
def fieldsSignature : List Variable → String
  | [] => ""
  | [v] => v.signature
  | v :: vs => v.signature ++ ";" ++ fieldsSignature vs

end

mutual

/-- The lines of a variable that stands at a level. -/
def description (level : Nat) : Variable → String
  | leaf n => String.join (List.replicate level "  ") ++ n.description ++ "\n"
  | dict n fs =>
    String.join (List.replicate level "  ") ++ n.description ++ "\n" ++
      fieldsDescription (level + 1) fs

def fieldsDescription (level : Nat) : List Variable → String
  | [] => ""
  | v :: vs => v.description level ++ fieldsDescription level vs

end

end Variable

namespace Call

/-- The name of the function, if the call is bound. -/
def functionName (c : Call) : String :=
  match c.function? with
  | some f => f.name
  | none => ""

/-- The text by which a specialization of the call is known. -/
def signature (c : Call) : String :=
  c.functionName ++ "(" ++ ", ".intercalate (c.roots.map Variable.signature) ++ ")"

/-- The key of a call: the digest of its signature. -/
def signatureDigest (c : Call) : String :=
  Digest.Blake3.hex c.signature

/-- The lines of all variables, below that of the function. -/
def description (c : Call) : String :=
  (match c.function? with
    | some f => f.name ++ "\n"
    | none => "") ++
    String.join (c.roots.map (Variable.description 1))

end Call

end KernelCall
