import KernelCall.Call.Basic
import KernelCall.Fault
import KernelCall.Layout
import KernelCall.Marshall.Registry

/-!
# Applying overrides

Overrides are applied from the root of each variable down. Those of a call are matched with its
variables before anything is changed; whether an override fits its variable shows on the way.
When several entries of a field override have the same key, the first one counts.
-/

namespace KernelCall

/-- What the names in overrides are looked up in. -/
structure Lookup where
  layout : Layout
  registry : MarshallRegistry

namespace Pin

/-- The type a node receives by a pin. Axes take that many dimensions away from its value. -/
def vectorType (lookup : Lookup) (m : Marshall) : Pin → Except PinFault KernelType
  | axes l =>
    match m.reduce l.length with
    | .ok t => .ok t
    | .error e => .error (.marshall e)
  | type t => .ok t
  | typeName name =>
    match lookup.layout.find? name with
    | some t => .ok t
    | none => .error (.unknownType name)
  | hostKind kind =>
    match lookup.registry.forKind kind with
    | .ok m => .ok m.kernelType
    | .error e => .error (.marshall e)

/-- Only axes fix a mapping. -/
def mapping (before : Mapping) : Pin → Mapping
  | axes l => .onto l
  | _ => before

end Pin

/-- Applies a pin to a node. -/
def Node.pin (lookup : Lookup) (p : Pin) (n : Node) : Except BindError Node :=
  match p.vectorType lookup n.marshall with
  | .ok t =>
    .ok { n with mapping := p.mapping n.mapping, vectorType? := some t, pin? := some p }
  | .error reason => .error ((Fault.pinFailed reason).blame n.path)

namespace Override

/-- The entry of a field override that counts for a key. -/
def entry? (entries : List (String × Override)) (key : String) : Option Override :=
  (entries.find? (·.1 == key)).map (·.2)

/-- The first key that names neither the container nor a field. -/
def unknownKey? (entries : List (String × Override)) (fields : List Variable) : Option String :=
  (entries.find? fun (key, _) ↦ key != containerKey && !fields.any (·.name == key)).map (·.1)

end Override

/-- Applies to a dictionary's node what an override says of the dictionary itself. -/
def Node.pinContainer (lookup : Lookup) (entries : List (String × Override)) (n : Node) :
    Except BindError Node :=
  match Override.entry? entries Override.containerKey with
  | none => .ok n
  | some (.fields fs) => .error ((Fault.containerNotTyped (.fields fs)).blame n.path)
  | some (.pin (.axes l)) => .error ((Fault.containerNotTyped (.pin (.axes l))).blame n.path)
  | some (.pin p) => n.pin lookup p

namespace Variable

mutual

/-- Applies an override to a variable. -/
def vectorize (lookup : Lookup) (o : Override) : Variable → Progress Variable
  | leaf n =>
    match o with
    | .fields _ => .stopped (leaf n) (Fault.fieldsOfLeaf.blame n.path)
    | .pin p => (Progress.ofExcept n (n.pin lookup p)).map leaf
  | dict n fs =>
    match o with
    | .pin p => .stopped (dict n fs) ((Fault.overrideOfDict (.pin p)).blame n.path)
    | .fields entries =>
      match Override.unknownKey? entries fs with
      | some key => .stopped (dict n fs) ((Fault.unknownField key).blame n.path)
      | none =>
        (vectorizeFields lookup entries fs).andThen (dict n) fun fs ↦
          (Progress.ofExcept n (n.pinContainer lookup entries)).map (dict · fs)

/-- Applies to each field the entry that counts for its name. -/
def vectorizeFields (lookup : Lookup) (entries : List (String × Override)) :
    List Variable → Progress (List Variable)
  | [] => .done []
  | v :: vs =>
    match Override.entry? entries v.name with
    | none => (vectorizeFields lookup entries vs).map (v :: ·)
    | some o =>
      (vectorize lookup o v).andThen (· :: vs) fun v ↦
        (vectorizeFields lookup entries vs).map (v :: ·)

end

end Variable

namespace Call

/-- Checks keyword overrides in order, `seen` being the keywords before them. -/
def checkKeywordOverrides (c : Call) (seen : List String) :
    List (String × Override) → Except BindError Unit
  | [] => .ok ()
  | (name, _) :: overrides =>
    if (c.kwarg? name).isNone then .error ((Fault.unknownKeywordOverride name).blame name)
    else if seen.contains name then .error ((Fault.keywordOverriddenTwice name).blame name)
    else checkKeywordOverrides c (name :: seen) overrides

/-- Checks that every override has a variable of its own. -/
def checkOverrides (c : Call) (v : Vectorization) : Except BindError Unit :=
  if c.args.length < v.args.length then
    .error (Fault.positionalOverrides v.args.length c.args.length).ofCall
  else if c.kwargs.length < v.kwargs.length then
    .error (Fault.keywordOverrides v.kwargs.length c.kwargs.length).ofCall
  else c.checkKeywordOverrides [] v.kwargs

/-- Applies positional overrides to the variables in front. -/
def vectorizePositional (lookup : Lookup) :
    List Variable → List Override → Progress (List Variable)
  | v :: vs, o :: os =>
    (v.vectorize lookup o).andThen (· :: vs) fun v ↦
      (vectorizePositional lookup vs os).map (v :: ·)
  | vs, _ => .done vs

/-- Applies an override to the first variable of a given name. -/
def vectorizeKeyword (lookup : Lookup) (name : String) (o : Override) :
    List Variable → Progress (List Variable)
  | [] => .done []
  | v :: vs =>
    if v.name == name then (v.vectorize lookup o).map (· :: vs)
    else (vectorizeKeyword lookup name o vs).map (v :: ·)

/-- Applies keyword overrides in the order in which they are given. -/
def vectorizeKeywords (lookup : Lookup) (kwargs : List Variable) :
    List (String × Override) → Progress (List Variable)
  | [] => .done kwargs
  | (name, o) :: overrides =>
    (vectorizeKeyword lookup name o kwargs).andThen id fun kwargs ↦
      vectorizeKeywords lookup kwargs overrides

/-- Applies the overrides of a call. -/
def vectorize (lookup : Lookup) (c : Call) (v : Vectorization) : Progress Call :=
  match c.checkOverrides v with
  | .error e => .stopped c e
  | .ok () =>
    (vectorizePositional lookup c.args v.args).andThen (fun args ↦ { c with args }) fun args ↦
      (vectorizeKeywords lookup c.kwargs v.kwargs).map fun kwargs ↦ { c with args, kwargs }

end Call

end KernelCall
