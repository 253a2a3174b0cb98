import KernelCall.Code.Block

/-!
# Differential pairs

A value with a gradient is stored in two slots of one struct. A slot without storage is declared
all the same, but gets no accessors.
-/

namespace KernelCall.Code

/-- The storage type of a slot that holds nothing. -/
def noStorage : String := "NoneType"

/-- The call-data struct of a value with a primal and a derivative slot: the storage type of either
slot and the type of the value that its accessors exchange. -/
structure DifferentialPair where
  name : String
  primalStorage : String
  derivativeStorage : String
  primalTarget : String
  derivativeTarget : String
  deriving DecidableEq, Repr

/-- The head of the accessor that reads a slot into a value. -/
def loadHead (slot target : String) : Command :=
  .line ("void load_" ++ slot ++ "(IContext context, out " ++ target ++ " value)")

/-- The head of the accessor that writes a value into a slot. -/
def storeHead (slot target : String) : Command :=
  .line ("void store_" ++ slot ++ "(IContext context, in " ++ target ++ " value)")

/-- The accessors of one slot; none without storage. -/
def slotAccessors (slot storage target : String) : List Command :=
  if storage == noStorage then []
  else [
    .blankLine,
    loadHead slot target,
    .openBlock,
    .statement ("this." ++ slot ++ ".load_primal(context, value)"),
    .closeBlock,
    .blankLine,
    storeHead slot target,
    .openBlock,
    .statement ("this." ++ slot ++ ".store_primal(context, value)"),
    .closeBlock]

/-- The struct `_t_<name>` with both slots and their accessors. -/
def DifferentialPair.commands (p : DifferentialPair) : List Command :=
  [.openStruct ("_t_" ++ p.name),
    .declare p.primalStorage "primal",
    .declare p.derivativeStorage "derivative"] ++
  slotAccessors "primal" p.primalStorage p.primalTarget ++
  slotAccessors "derivative" p.derivativeStorage p.derivativeTarget ++
  [.closeStruct]

end KernelCall.Code
