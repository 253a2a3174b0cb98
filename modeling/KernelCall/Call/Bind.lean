import KernelCall.Variable.OfValue

/-!
# Binding to a function

Positional variables bind to the parameters in order, keyword variables to the parameters they
name; the reserved keywords bind to the receiver, which travels both ways, and to the returned
value, which travels out. A dictionary binds to a struct field by field.

Counts and keywords are checked before any variable is changed. A key without a field is found
only on the way down, when the variables before it are bound already.
-/

namespace KernelCall

namespace Variable

mutual

/-- Binds a variable and all below it, which take on the path they are reached by. -/
def bindTo (path : String) (target : Target) : Variable → Progress Variable
  | leaf n => .done (leaf { n with path, target? := some target })
  | dict n fs =>
    (bindFields path target fs).andThen (fun fs ↦ dict { n with path } fs) fun fs ↦
      .done (dict { n with path, target? := some target } fs)

/-- Binds each field to the field of the struct that has its name. -/
def bindFields (path : String) (target : Target) : List Variable → Progress (List Variable)
  | [] => .done []
  | v :: vs =>
    match target.type.field? v.name with
    | none =>
      .stopped (v :: vs) ((Fault.noField target.type v.name).blame (subpath path v.name))
    | some type =>
      (bindTo (subpath path v.name) { target with type } v).andThen (· :: vs) fun v ↦
        (bindFields path target vs).map (v :: ·)

end

/-- Binds a root. One that has no name yet is named after its parameter. -/
def bindRoot (v : Variable) (name : String) (target : Target) (paramIndex? : Option Nat) :
    Progress Variable :=
  let name := if v.name.isEmpty then name else v.name
  (v.mapNode fun n ↦ { n with name, paramIndex? }).bindTo name target

end Variable

namespace Call

/-! ## Checks -/

/-- Checks one keyword against a function, `filled` being the positions of the parameters filled so
far. Returns the position that the keyword fills, if it is not a reserved one. -/
def checkKeyword (f : Function) (filled : List Nat) (name : String) :
    Except BindError (Option Nat) :=
  if name == receiverKeyword then
    if f.receiverType.isNone then .error ((Fault.notMember f.name).blame name) else .ok none
  else if name == resultKeyword then
    if f.returnType.isNone then .error ((Fault.noReturnValue f.name).blame name) else .ok none
  else match f.paramIndex? name with
    | none => .error ((Fault.noParameter f.name name).blame name)
    | some index =>
      if filled.contains index then .error ((Fault.suppliedTwice name).blame name)
      else .ok (some index)

/-- Checks keywords in order, and returns the positions of all parameters that are filled. -/
def checkKeywords (f : Function) (filled : List Nat) : List String → Except BindError (List Nat)
  | [] => .ok filled
  | name :: names =>
    match checkKeyword f filled name with
    | .error e => .error e
    | .ok none => checkKeywords f filled names
    | .ok (some index) => checkKeywords f (index :: filled) names

/-- Checks that a function can be called with the variables of a call: there are not too many
positional ones, every keyword is known and used once, and no parameter is left out. -/
def checkArity (c : Call) (f : Function) : Except BindError Unit :=
  if f.params.length < c.args.length then
    .error (Fault.tooManyArguments f.name f.params.length c.args.length).ofCall
  else
    match checkKeywords f (List.range c.args.length) (c.kwargs.map (·.name)) with
    | .error e => .error e
    | .ok filled =>
      match f.params.zipIdx.find? fun (_, index) ↦ !filled.contains index with
      | some (param, _) => .error (Fault.missingArgument param.name f.name).ofCall
      | none => .ok ()

/-! ## Binding -/

/-- Binds positional variables to the parameters from position `index` on. -/
def bindPositional (index : Nat) : List Variable → List Parameter → Progress (List Variable)
  | v :: vs, param :: params =>
    (v.bindRoot param.name ⟨param.type, param.modifiers⟩ (some index)).andThen (· :: vs) fun v ↦
      (bindPositional (index + 1) vs params).map (v :: ·)
  | vs, _ => .done vs

/-- Binds a keyword variable to what its keyword names. -/
def bindKeyword (f : Function) (v : Variable) : Progress Variable :=
  if v.name == receiverKeyword then
    match f.receiverType with
    | some type => v.bindRoot receiverKeyword ⟨type, { inputOutput := true }⟩ none
    | none => .done v
  else if v.name == resultKeyword then
    match f.returnType with
    | some type => v.bindRoot resultKeyword ⟨type, { output := true }⟩ none
    | none => .done v
  else match f.param? v.name with
    | some (index, param) => v.bindRoot param.name ⟨param.type, param.modifiers⟩ (some index)
    | none => .done v

/-- Binds a call to a function. The call counts as bound once all its variables are. -/
def bind (c : Call) (f : Function) : Progress Call :=
  match c.checkArity f with
  | .error e => .stopped c e
  | .ok () =>
    (bindPositional 0 c.args f.params).andThen (fun args ↦ { c with args }) fun args ↦
      (Progress.traverse (bindKeyword f) c.kwargs).andThen
        (fun kwargs ↦ { c with args, kwargs }) fun kwargs ↦
          .done { args, kwargs, function? := some f }

end Call

end KernelCall
