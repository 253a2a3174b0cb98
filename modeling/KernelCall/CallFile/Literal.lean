import KernelCall.CallFile.Basic

/-!
# Literals

How host values and overrides are read from TOML. Numbers, flags and lists of numbers are values by
themselves. A table with a `kind` that names a resource, and the fields that the resource needs, is
that resource; further keys are passed over. Every other table is a dictionary of values. A
resource may also be written as an array of its kind and its fields in order.

A string is no value. So a table whose `kind` is a string, but which is not a resource, has no
reading at all.
-/

namespace KernelCall.CallFile

open Toml

namespace HostLiteral

/-- The key that names a resource. -/
def kindKey : String := "kind"

/-- The fields of a resource. -/
def resourceFields? : (kind : String) → Option (List Field)
  | "vector" => some [⟨"scalar", .always⟩, ⟨"values", .never⟩]
  | "value_ref" => some [⟨"value", .never⟩]
  | "diff_pair" => some [⟨"primal", .never⟩, ⟨"grad", .always⟩, ⟨"needs_grad", .always⟩]
  | "buffer" =>
    some [⟨"element", .never⟩, ⟨"shape", .never⟩, ⟨"writable", .always⟩, ⟨"grad", .inTables⟩]
  | "texture" => some [⟨"texel", .never⟩, ⟨"size", .never⟩, ⟨"writable", .always⟩]
  | _ => none

/-- The resource of a kind with given fields. `inner?` is the reading of the field `value`. -/
def ofFields? (kind : String) (es : List (String × Value)) (inner? : Option HostLiteral) :
    Option HostLiteral := do
  match kind with
  | "vector" =>
    return .vector (← fieldOr (·.string?) "float" "scalar" es)
      (← field? (·.list? (·.number?)) "values" es)
  | "value_ref" => return .valueRef (← inner?)
  | "diff_pair" =>
    return .diffPair (← field? (·.number?) "primal" es) (← fieldOr (·.number?) 0 "grad" es)
      (← fieldOr (·.boolean?) true "needs_grad" es)
  | "buffer" =>
    return .buffer (← field? (·.string?) "element" es) (← field? (·.list? (·.count?)) "shape" es)
      (← fieldOr (·.boolean?) false "writable" es)
      (← fieldOr (fun v ↦ some <$> v.boolean?) none "grad" es)
  | "texture" =>
    return .texture (← field? (·.string?) "texel" es) (← field? (·.list? (·.count?)) "size" es)
      (← fieldOr (·.boolean?) false "writable" es)
  | _ => none

/-- The resource in a table, given the readings of its entries. -/
def ofTagged? (es : List (String × Value)) (read : List (String × Option HostLiteral)) :
    Option HostLiteral := do
  let kind ← field? (·.string?) kindKey es
  let fields ← resourceFields? kind
  if Field.arePresent fields es then ofFields? kind es (lookup "value" read).join else none

/-- The resource in an array, given the readings of its items. -/
def ofListed? : List Value → List (Option HostLiteral) → Option HostLiteral
  | .string kind :: vs, _ :: read => do
    let fields ← resourceFields? kind
    if fields.length < vs.length then none
    else ofFields? kind (← Field.ofItems? fields vs) read.head?.join
  | _, _ => none

/-- The dictionary of some readings, none of which may be missing. -/
def ofReadings? (read : List (String × Option HostLiteral)) : Option HostLiteral := do
  return .dict (byKey (← read.mapM fun (key, l?) ↦ l?.map (key, ·)))

mutual

/-- Reads a host value. -/
def ofValue? : Value → Option HostLiteral
  | .boolean b => some (.bool b)
  | .integer i => some (.int i)
  | .float x => some (.float x)
  | .array vs => .list <$> vs.mapM (·.number?) <|> ofListed? vs (readItems vs)
  | .table es => ofTagged? es (readEntries es) <|> ofReadings? (readEntries es)
  | .string _ => none
  | .dateTime _ => none

def readItems : List Value → List (Option HostLiteral)
  | [] => []
  | v :: vs => ofValue? v :: readItems vs

def readEntries : List (String × Value) → List (String × Option HostLiteral)
  | [] => []
  | (key, v) :: es => (key, ofValue? v) :: readEntries es

end

end HostLiteral

namespace OverrideLiteral

mutual

/-- Reads an override. -/
def ofValue? : Value → Option OverrideLiteral
  | .array vs => .axes <$> vs.mapM (·.count?)
  | .string s => some (.name s)
  | .table es => (fun es ↦ .fields (byKey es)) <$> ofEntries? es
  | .dateTime text => some (.fields [(dateTimeKey, .name text)])
  | _ => none

def ofEntries? : List (String × Value) → Option (List (String × OverrideLiteral))
  | [] => some []
  | (key, v) :: es => do return (key, ← ofValue? v) :: (← ofEntries? es)

end

end OverrideLiteral

end KernelCall.CallFile
