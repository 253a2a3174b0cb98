import KernelCall.Code.Block

/-!
# Generated modules

The code generated for one call has three parts: the types that store its arguments, the fields of
the `CallData` struct that gathers them, and the trampoline that passes them to the kernel.
-/

namespace KernelCall.Code

/-- The parts of a generated module. -/
structure Module where
  structs : Block := {}
  callData : Block := { indent := 1 }
  trampoline : Block := {}
  deriving DecidableEq, Repr, Inhabited

namespace Module

/-- The module's text. An empty line separates the parts that are there. -/
def text (m : Module) : String :=
  m.structs.text ++ (if m.structs.isEmpty then "" else "\n") ++
    "struct CallData\n\x7b\n" ++ m.callData.text ++ "\x7d;\n" ++
    "ParameterBlock<CallData> call_data;\n" ++
    (if m.trampoline.isEmpty then "" else "\n" ++ m.trampoline.text)

end Module

end KernelCall.Code
