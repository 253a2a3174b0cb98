import KernelCall.CallFile.Literal

/-!
# Reading call files

The schema of call files. Keys that it does not know are errors everywhere but in the options and
in the tables of host values.
-/

namespace KernelCall.CallFile

open Toml

namespace FunctionDeclaration

/-- The value of a field that may be absent. -/
def text? (name : String) (es : List (String × Value)) : Option (Option String) :=
  fieldOr (fun v ↦ some <$> v.string?) none name es

end FunctionDeclaration

def ParameterDeclaration.ofValue? (v : Value) : Option ParameterDeclaration := do
  let es ← v.record? [⟨"name", .never⟩, ⟨"type", .never⟩, ⟨"modifiers", .always⟩]
  return {
    name := ← field? (·.string?) "name" es
    type := ← field? (·.string?) "type" es
    modifiers := ← fieldOr (·.list? (·.string?)) [] "modifiers" es }

def FunctionDeclaration.ofValue? (v : Value) : Option FunctionDeclaration := do
  let es ← v.record? [⟨"name", .never⟩, ⟨"return", .inTables⟩, ⟨"this", .inTables⟩,
    ⟨"differentiable", .always⟩, ⟨"params", .always⟩]
  return {
    name := ← field? (·.string?) "name" es
    returnType? := ← text? "return" es
    receiverType? := ← text? "this" es
    differentiable := ← fieldOr (·.boolean?) false "differentiable" es
    params := ← fieldOr (·.list? ParameterDeclaration.ofValue?) [] "params" es }

/-- A field of a struct: its name and that of its type. -/
def StructDeclaration.fieldOfValue? (v : Value) : Option (String × String) := do
  let es ← v.record? [⟨"name", .never⟩, ⟨"type", .never⟩]
  return (← field? (·.string?) "name" es, ← field? (·.string?) "type" es)

def StructDeclaration.ofValue? (v : Value) : Option StructDeclaration := do
  let es ← v.record? [⟨"name", .never⟩, ⟨"differentiable", .always⟩, ⟨"fields", .always⟩]
  return {
    name := ← field? (·.string?) "name" es
    differentiable := ← fieldOr (·.boolean?) false "differentiable" es
    fields := ← fieldOr (·.list? fieldOfValue?) [] "fields" es }

/-- A table with values of one kind, in the order of its keys. -/
def map? {α : Type} (read? : Value → Option α) (v : Value) : Option (List (String × α)) := do
  return byKey (← (← v.entries?).mapM fun (key, v) ↦ (read? v).map (key, ·))

/-- The overrides of a call: positional ones, and those of keyword arguments. -/
def vectorize? (v : Value) :
    Option (List OverrideLiteral × List (String × OverrideLiteral)) := do
  let es ← v.record? [⟨"args", .always⟩, ⟨"kwargs", .always⟩]
  return (← fieldOr (·.list? OverrideLiteral.ofValue?) [] "args" es,
    ← fieldOr (map? OverrideLiteral.ofValue?) [] "kwargs" es)

/-- Reads a call file. -/
def ofEntries? (es : List (String × Value)) : Option CallFile := do
  let es ← (Value.table es).record? [⟨"function", .never⟩, ⟨"types", .always⟩, ⟨"args", .always⟩,
    ⟨"kwargs", .always⟩, ⟨"vectorize", .always⟩, ⟨"options", .inTables⟩]
  let (overrides, keywordOverrides) ← fieldOr vectorize? ([], []) "vectorize" es
  return {
    function := ← field? FunctionDeclaration.ofValue? "function" es
    structs := ← fieldOr (·.list? StructDeclaration.ofValue?) [] "types" es
    args := ← fieldOr (·.list? HostLiteral.ofValue?) [] "args" es
    kwargs := ← fieldOr (map? HostLiteral.ofValue?) [] "kwargs" es
    overrides, keywordOverrides
    options? := ← fieldOr (fun v ↦ some <$> Options.ofValue? v) none "options" es }

/-- Reads a call file from its text. -/
def parse? (text : String) : Option CallFile := do
  ofEntries? (← Toml.parse? text)

end KernelCall.CallFile
