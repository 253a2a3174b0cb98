import KernelCall.Call.Differentiate
import KernelCall.Code.Module
import KernelCall.Marshall.Storage

/-!
# Generated call data

Every variable `x` gets a type `_t_x` that stores it and a constant `_m_x` with the dispatch axes
it runs along. A leaf is stored as its marshall asks. A dictionary becomes a struct around the
types of its fields, and its accessors load and store field by field; its constant passes all axes
on, so that the constants of the fields select from the whole dispatch. Root variables are also
declared as fields of `CallData`.

The trampoline receives the loaded variables and calls the kernel function, its parameters in the
order in which they are declared.
-/

namespace KernelCall

open Code

/-- The constant that lists the axes of a variable. -/
def mappingConstant (name : String) : (axes : List Nat) → Command
  | [] => .statement ("static const int _m_" ++ name ++ " = 0")
  | axes =>
    .statement ("static const int[] _m_" ++ name ++ " = \x7b " ++
      ",".intercalate (axes.map toString) ++ " \x7d")

/-- The field that holds a variable. -/
def fieldDeclaration (name : String) : Command := .declare ("_t_" ++ name) name

/-- The type of the values in a slot of a variable of type `t`. -/
def KernelType.inSlot (t : KernelType) : Slot → String
  | .primal => t.name
  | .derivative => t.differentialName

/-! ## Types of variables -/

/-- The type and the constant of a leaf. A root that is written back must be writable. -/
def Node.leafCommands (isRoot : Bool) (n : Node) : Except BindError (List Command) :=
  if n.access.primal.writes && !n.marshall.isWritable && isRoot then
    .error ((Fault.notWritable n.path n.marshall.typeName).blame n.path)
  else match n.callData with
    | .error e => .error ((Fault.marshall e).blame n.path)
    | .ok d => .ok (d.commands n.name ++ [mappingConstant n.name n.mapping.axes])

/-- The call of a field's accessor on the axes the field runs along. -/
def accessorCall (verb : String) (slot : Slot) (field argument : String) : Command :=
  .statement ("this." ++ field ++ "." ++ verb ++ "_" ++ slot.name ++ "(ctx(context, _m_" ++ field ++
    ")," ++ argument ++ ")")

/-- Loads one field into a local and moves it into the value. -/
def loadField (slot : Slot) (v : Variable) : Except BindError (List Command) := do
  let t ← v.node.vectorType
  return [.declare (t.inSlot slot) v.name, accessorCall "load" slot v.name v.name,
    .assign ("value." ++ v.name) v.name]

def storeField (slot : Slot) (v : Variable) : Command :=
  accessorCall "store" slot v.name ("value." ++ v.name)

/-- The accessors of one slot of a dictionary that receives `t`. -/
def fieldAccessors (t : KernelType) (fields : List Variable) (slot : Slot) :
    Except BindError (List Command) := do
  let loads ← fields.mapM (loadField slot)
  return [.blankLine, .blankLine, loadHead slot.name (t.inSlot slot), .openBlock] ++
    loads.flatten ++
    [.closeBlock, .blankLine, storeHead slot.name (t.inSlot slot), .openBlock] ++
    fields.map (storeField slot) ++
    [.closeBlock]

/-- The slots of a dictionary that are accessed. -/
def Node.accessedSlots (n : Node) : List Slot :=
  Slot.all.filter fun slot ↦ n.access.get slot != .none

namespace Variable

mutual

/-- The type and the constant of a variable in a dispatch of rank `gridRank`. -/
def typeCommands (gridRank : Nat) (isRoot : Bool) : Variable → Except BindError (List Command)
  | leaf n => n.leafCommands isRoot
  | dict n fs => do
    let t ← n.vectorType
    let inner ← fieldTypeCommands gridRank fs
    let accessors ← n.accessedSlots.mapM (fieldAccessors t fs)
    return [.openStruct ("_t_" ++ n.name)] ++ inner ++ fs.map (fieldDeclaration ·.name) ++
      accessors.flatten ++ [.closeStruct, mappingConstant n.name (List.range gridRank)]

def fieldTypeCommands (gridRank : Nat) : List Variable → Except BindError (List Command)
  | [] => .ok []
  | v :: vs => do
    let first ← typeCommands gridRank false v
    let rest ← fieldTypeCommands gridRank vs
    return first ++ rest

end

/-- Adds a variable to a module; a root is declared in the call data too. -/
def emit (gridRank : Nat) (isRoot : Bool) (v : Variable) (m : Module) :
    Except BindError Module := do
  let commands ← v.typeCommands gridRank isRoot
  return { m with
    structs := m.structs.runAll commands
    callData := if isRoot then m.callData.run (fieldDeclaration v.name) else m.callData }

/-- The variable as a formal parameter of the trampoline. -/
def formal (v : Variable) : Except BindError String := do
  let t ← v.node.vectorType
  let mark := if v.node.noDiff || !v.node.differentiable then "no_diff " else ""
  return mark ++ v.node.direction.name ++ " " ++ t.name ++ " " ++ v.name

end Variable

/-! ## Modules of calls -/

/-- The order of parameter positions; variables without one stand in front. -/
def paramOrder (v w : Variable) : Bool :=
  match v.node.paramIndex?, w.node.paramIndex? with
  | some i, some j => i ≤ j
  | none, _ => true
  | some _, none => false

namespace Call

/-- The statement that calls the function. -/
def statement (c : Call) (f : Function) : String :=
  let actuals := ((c.roots.filter (!isReserved ·.name)).mergeSort paramOrder).map (·.name)
  let receiver := match c.kwarg? receiverKeyword with
    | some v => v.name ++ "."
    | none => ""
  let result := match c.kwarg? resultKeyword with
    | some v => v.name ++ " = "
    | none => ""
  result ++ receiver ++ f.name ++ "(" ++ ", ".intercalate actuals ++ ")"

/-- The trampoline of a bound call. -/
def trampoline (c : Call) : Except BindError (List Command) := do
  match c.function? with
  | none => .error Fault.unboundCall.ofCall
  | some f =>
    let formals ← c.roots.mapM Variable.formal
    return (if f.differentiable then [.line "[Differentiable]"] else []) ++
      [.line ("void _trampoline(" ++ ", ".intercalate formals ++ ")"), .openBlock,
        .statement (c.statement f), .closeBlock]

/-- The module of a call in a dispatch of rank `gridRank`. -/
def emit (c : Call) (gridRank : Nat) : Except BindError Module := do
  let m ← c.roots.foldlM (fun m v ↦ v.emit gridRank true m) {}
  return { m with trampoline := m.trampoline.runAll (← c.trampoline) }

end Call

end KernelCall
