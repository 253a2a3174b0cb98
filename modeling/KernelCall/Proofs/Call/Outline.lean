import KernelCall.Proofs.Call.Built
import KernelCall.Proofs.Call.Trampoline
import KernelCall.Proofs.Code.Outline

/-!
# Outlines of calls

The module for a call, as declarations: for each root the type that stores it and the constant with
its axes, the struct `CallData` around the roots and the one value of it, and the trampoline. The
type of a dictionary is a struct around the types, constants and fields of what is in it, followed by
its accessors.

Once a call has code, the code is the text of its outline.
-/

namespace KernelCall

open Code

/-! ## Accessors -/

/-- The accessor that loads or stores a slot of type `target`. -/
def accessor (verb slot direction target : String) (body : List Statement) : Declaration :=
  .function (verb ++ "_" ++ slot)
    [⟨"IContext", "context"⟩, ⟨direction ++ " " ++ target, "value"⟩] body

/-- The accessors of a slot of a pair, which leave the work to the storage. -/
def slotOutline (slot storage target : String) : List Declaration :=
  if storage == noStorage then []
  else [.blankLine,
    accessor "load" slot "out" target
      [.evaluate ("this." ++ slot ++ ".load_primal(context, value)")],
    .blankLine,
    accessor "store" slot "in" target
      [.evaluate ("this." ++ slot ++ ".store_primal(context, value)")]]

/-- The call of a field's accessor. -/
def fieldAccess (verb : String) (slot : Slot) (field argument : String) : Statement :=
  .evaluate ("this." ++ field ++ "." ++ verb ++ "_" ++ slot.name ++ "(ctx(context, _m_" ++ field ++
    ")," ++ argument ++ ")")

/-- The name of the type in a slot of a node; none before the node is resolved. -/
def Node.slotType (n : Node) (slot : Slot) : String :=
  n.vectorType?.elim "" (·.inSlot slot)

/-- The accessors of one slot of a dictionary. -/
def fieldOutline (n : Node) (fields : List Variable) (slot : Slot) : List Declaration :=
  [.blankLine, .blankLine,
    accessor "load" slot.name "out" (n.slotType slot) (fields.flatMap fun v ↦
      [.declare (v.node.slotType slot) v.name, fieldAccess "load" slot v.name v.name,
        .assign ("value." ++ v.name) v.name]),
    .blankLine,
    accessor "store" slot.name "in" (n.slotType slot)
      (fields.map fun v ↦ fieldAccess "store" slot v.name ("value." ++ v.name))]

/-! ## Variables -/

def CallData.outline (name : String) : CallData → Declaration
  | single storage => .typeAlias ("_t_" ++ name) storage.text
  | pair primal derivative target =>
    .struct ("_t_" ++ name) ([.field primal.text "primal", .field derivative.text "derivative"] ++
      slotOutline "primal" primal.text target.name ++
        slotOutline "derivative" derivative.text target.differentialName)

/-- The field that holds a variable. -/
def storedField (name : String) : Declaration := .field ("_t_" ++ name) name

namespace Variable

mutual

/-- The type and the constant of a variable in a dispatch of rank `gridRank`; nothing for a leaf that
cannot be stored. -/
def outline (gridRank : Nat) : Variable → List Declaration
  | leaf n =>
    match n.callData with
    | .ok d => [d.outline n.name, .constant n.name n.mapping.axes]
    | .error _ => []
  | dict n fs =>
    [.struct ("_t_" ++ n.name) (fieldOutlines gridRank fs ++ fs.map (storedField ·.name) ++
      n.accessedSlots.flatMap (fieldOutline n fs)), .constant n.name (List.range gridRank)]

def fieldOutlines (gridRank : Nat) : List Variable → List Declaration
  | [] => []
  | v :: vs => v.outline gridRank ++ fieldOutlines gridRank vs

end

theorem fieldOutlines_eq_flatMap (gridRank : Nat) (vs : List Variable) :
    fieldOutlines gridRank vs = vs.flatMap (outline gridRank) := by
  induction vs with
  | nil => rfl
  | cons v vs ih => rw [fieldOutlines, ih, List.flatMap_cons]

theorem outline_dict (gridRank : Nat) (n : Node) (fs : List Variable) :
    (dict n fs).outline gridRank =
      [.struct ("_t_" ++ n.name) (fs.flatMap (outline gridRank) ++ fs.map (storedField ·.name) ++
        n.accessedSlots.flatMap (fieldOutline n fs)), .constant n.name (List.range gridRank)] := by
  rw [outline, fieldOutlines_eq_flatMap]

/-- The axes that the constant of a variable lists: the mapping of a leaf, and all axes of the
dispatch for a dictionary. -/
def constantAxes (gridRank : Nat) : Variable → List Nat
  | leaf n => n.mapping.axes
  | dict _ _ => List.range gridRank

/-- The variable as a formal parameter of the trampoline. -/
def trampolineFormal (v : Variable) : Formal where
  type := (if v.node.noDiff || !v.node.differentiable then "no_diff " else "") ++
    v.node.direction.name ++ " " ++ v.node.slotType .primal
  name := v.name

end Variable

namespace Call

def trampolineOutline (c : Call) (f : Function) : List Declaration :=
  (if f.differentiable then [.mark "[Differentiable]"] else []) ++
    [.function "_trampoline" (c.roots.map Variable.trampolineFormal) [.evaluate (c.statement f)]]

/-- The declarations of the module for a call of a function. -/
def outline (c : Call) (f : Function) (gridRank : Nat) : List Declaration :=
  c.roots.flatMap (Variable.outline gridRank) ++ (if c.roots.isEmpty then [] else [.blankLine]) ++
    [.struct "CallData" (c.roots.map (storedField ·.name)),
      .field "ParameterBlock<CallData>" "call_data", .blankLine] ++ c.trampolineOutline f

end Call

/-! ## Writing accessors -/

private theorem flatten_eq_flatMap {α β : Type} {g : α → List β} {xs : List α} {yss : List (List β)}
    (h : List.Forall₂ (fun x ys ↦ ys = g x) xs yss) : yss.flatten = xs.flatMap g := by
  induction h with
  | nil => rfl
  | cons hxy _ ih => rw [List.flatten_cons, List.flatMap_cons, hxy, ih]

theorem commands_load (slot target : String) (body : List Statement) :
    (accessor "load" slot "out" target body).commands =
      [loadHead slot target, .openBlock] ++ body.map Statement.command ++ [.closeBlock] := by
  have htext : "void " ++ ("load" ++ "_" ++ slot) ++ "(" ++ ", ".intercalate
      [Formal.text ⟨"IContext", "context"⟩, Formal.text ⟨"out" ++ " " ++ target, "value"⟩] ++ ")" =
        "void load_" ++ slot ++ "(IContext context, out " ++ target ++ " value)" := by
    apply String.toList_inj.mp
    simp [Formal.text, String.intercalate_cons_cons]
  exact congrArg (fun text ↦ [Command.line text, .openBlock] ++ body.map Statement.command ++
    [.closeBlock]) htext

theorem commands_store (slot target : String) (body : List Statement) :
    (accessor "store" slot "in" target body).commands =
      [storeHead slot target, .openBlock] ++ body.map Statement.command ++ [.closeBlock] := by
  have htext : "void " ++ ("store" ++ "_" ++ slot) ++ "(" ++ ", ".intercalate
      [Formal.text ⟨"IContext", "context"⟩, Formal.text ⟨"in" ++ " " ++ target, "value"⟩] ++ ")" =
        "void store_" ++ slot ++ "(IContext context, in " ++ target ++ " value)" := by
    apply String.toList_inj.mp
    simp [Formal.text, String.intercalate_cons_cons]
  exact congrArg (fun text ↦ [Command.line text, .openBlock] ++ body.map Statement.command ++
    [.closeBlock]) htext

theorem slotAccessors_eq (slot storage target : String) :
    slotAccessors slot storage target =
      (slotOutline slot storage target).flatMap Declaration.commands := by
  rw [slotAccessors, slotOutline]
  split
  · rfl
  · simp only [List.flatMap_cons, List.flatMap_nil, commands_load, commands_store]
    rfl

theorem CallData.commands_eq (name : String) (d : CallData) :
    d.commands name = (d.outline name).commands := by
  cases d with
  | single storage => rfl
  | pair primal derivative target =>
    rw [outline, Declaration.commands_struct, List.flatMap_append, List.flatMap_append,
      ← slotAccessors_eq, ← slotAccessors_eq]
    simp [commands, DifferentialPair.commands, Declaration.commands]

namespace Variable

theorem slotType_of_vectorType {n : Node} {t : KernelType} (h : n.vectorType = .ok t)
    (slot : Slot) : n.slotType slot = t.inSlot slot := by
  rw [Node.vectorType] at h
  cases hn : n.vectorType? with
  | none => rw [hn] at h; cases h
  | some u =>
    rw [hn] at h
    cases h
    rw [Node.slotType, hn]
    rfl

theorem fieldAccessors_eq {n : Node} {t : KernelType} {fs : List Variable} {slot : Slot}
    {commands : List Command} (ht : n.vectorType = .ok t)
    (h : fieldAccessors t fs slot = .ok commands) :
    commands = (fieldOutline n fs slot).flatMap Declaration.commands := by
  obtain ⟨loads, hloads, h⟩ := bind_eq_ok_iff.mp h
  cases h
  have hload : loads.flatten = (fs.flatMap fun v ↦ [Statement.declare (v.node.slotType slot) v.name,
      fieldAccess "load" slot v.name v.name, .assign ("value." ++ v.name) v.name]).map
        Statement.command := by
    rw [List.map_flatMap]
    refine flatten_eq_flatMap ((mapM_eq_ok_iff.mp hloads).imp fun v load hv ↦ ?_)
    obtain ⟨u, hu, hv⟩ := bind_eq_ok_iff.mp hv
    cases hv
    rw [slotType_of_vectorType hu]
    rfl
  have hstore : fs.map (storeField slot) = (fs.map fun v ↦
      fieldAccess "store" slot v.name ("value." ++ v.name)).map Statement.command := by
    rw [List.map_map]
    rfl
  simp only [fieldOutline, List.flatMap_cons, List.flatMap_nil, commands_load, commands_store,
    ← hload, ← hstore, slotType_of_vectorType ht, Declaration.commands]
  simp

/-- **The code for a variable** is written as outlined. -/
theorem typeCommands_eq {gridRank : Nat} {isRoot : Bool} {v : Variable} {commands : List Command}
    (h : v.typeCommands gridRank isRoot = .ok commands) :
    commands = (v.outline gridRank).flatMap Declaration.commands := by
  induction v generalizing isRoot commands with
  | leaf n =>
    obtain ⟨d, hd, rfl⟩ := Node.leafCommands_eq_ok h
    rw [outline, hd, CallData.commands_eq]
    rfl
  | dict n fs ih =>
    obtain ⟨t, inner, accessors, ht, hinner, haccessors, rfl⟩ := typeCommands_dict_eq_ok h
    have hfields : inner.flatten =
        (fs.flatMap (outline gridRank)).flatMap Declaration.commands := by
      rw [List.flatMap_assoc]
      exact flatten_eq_flatMap (forall₂_of_mem hinner fun f hf own _ hown ↦ ih f hf hown)
    have hslots : accessors.flatten =
        (n.accessedSlots.flatMap (fieldOutline n fs)).flatMap Declaration.commands := by
      rw [List.flatMap_assoc]
      exact flatten_eq_flatMap (haccessors.imp fun slot own ↦ fieldAccessors_eq ht)
    have hstored : fs.map (fieldDeclaration ·.name) =
        (fs.map (storedField ·.name)).flatMap Declaration.commands := by
      rw [List.flatMap_map, List.map_eq_flatMap]
      rfl
    rw [outline_dict, hfields, hslots, hstored, List.flatMap_cons, Declaration.commands_struct,
      List.flatMap_append, List.flatMap_append]
    simp [Declaration.commands]

/-- A variable that has code is declared by a type and a constant. -/
theorem outline_of_typeCommands {gridRank : Nat} {isRoot : Bool} {v : Variable}
    {commands : List Command} (h : v.typeCommands gridRank isRoot = .ok commands) :
    ∃ d, v.outline gridRank = [d, .constant v.name (v.constantAxes gridRank)] ∧
      d.name? = some ("_t_" ++ v.name) := by
  cases v with
  | leaf n =>
    obtain ⟨d, hd, -⟩ := Node.leafCommands_eq_ok h
    refine ⟨d.outline n.name, ?_, by cases d <;> rfl⟩
    rw [outline, hd]
    rfl
  | dict n fs => exact ⟨_, outline_dict gridRank n fs, rfl⟩

theorem text_trampolineFormal {v : Variable} {formal : String} (h : v.formal = .ok formal) :
    formal = v.trampolineFormal.text := by
  obtain ⟨t, ht, h⟩ := bind_eq_ok_iff.mp h
  cases h
  rw [trampolineFormal, slotType_of_vectorType ht]
  rfl

end Variable

namespace Call

/-- There is a type to write if there is a root. -/
private theorem text_gap {gridRank : Nat} {vs : List Variable} {own : List (List Command)}
    (hown : List.Forall₂ (fun v own ↦ v.typeCommands gridRank true = .ok own) vs own) :
    (if (Code.text (vs.flatMap (Variable.outline gridRank))).isEmpty then "" else "\n") =
      Code.text (if vs.isEmpty then [] else [.blankLine]) := by
  cases hown with
  | nil => rfl
  | @cons v first vs own hfirst _ =>
    obtain ⟨d, houtline, -⟩ := Variable.outline_of_typeCommands hfirst
    have hconstant : Code.text [.constant v.name (v.constantAxes gridRank)] ≠ "" := by
      cases v.constantAxes gridRank <;>
        simp [Code.text, Declaration.commands, mappingConstant, written_statement]
    have htext : Code.text ((v :: vs).flatMap (Variable.outline gridRank)) ≠ "" := by
      rw [List.flatMap_cons, houtline, ← List.singleton_append, text_append, text_append]
      simp [hconstant]
    rw [if_neg (by simpa using htext)]
    rfl

theorem text_trampolineOutline {f : Function} {c : Call} {commands : List Command}
    (hf : c.function? = some f) (h : c.trampoline = .ok commands) :
    written 0 commands = Code.text (c.trampolineOutline f) ∧
      (written 0 commands).isEmpty = false := by
  obtain ⟨formals, hformals, rfl⟩ := trampoline_eq_ok hf h
  have htexts : formals = (c.roots.map Variable.trampolineFormal).map Formal.text := by
    rw [List.map_map, ← List.forall₂_eq_eq_eq, List.forall₂_map_right_iff]
    exact hformals.flip.imp fun _ _ ↦ Variable.text_trampolineFormal
  constructor
  · rw [htexts, trampolineOutline]
    cases f.differentiable <;> rfl
  · rw [Code.written_append]
    simp [written_line]

theorem text_callData (vs : List Variable) :
    "struct CallData\n\x7b\n" ++ written 1 (vs.map (fieldDeclaration ·.name)) ++ "\x7d;\n" =
      Code.text [.struct "CallData" (vs.map (storedField ·.name))] := by
  have hfields : (vs.map (storedField ·.name)).flatMap Declaration.commands =
      vs.map (fieldDeclaration ·.name) := by
    rw [List.flatMap_map, List.map_eq_flatMap]
    rfl
  have hlevel : Level (vs.map (fieldDeclaration ·.name)) := by
    rw [← hfields]
    exact level_flatMap fun d _ ↦ d.level_commands
  rw [Code.text, List.flatMap_singleton, Declaration.commands_struct, hfields,
    written_struct hlevel]
  simp [String.append_assoc, margin]

/-- **The code for a call** is the text of its outline. -/
theorem text_outline {f : Function} {c : Call} {gridRank : Nat} {m : Module}
    (hf : c.function? = some f) (h : c.emit gridRank = .ok m) :
    m.text = Code.text (c.outline f gridRank) := by
  obtain ⟨own, trampoline, hown, htrampoline, rfl⟩ := emit_eq_ok h
  obtain ⟨htrampoline, hthere⟩ := text_trampolineOutline hf htrampoline
  have htypes : written 0 own.flatten =
      Code.text (c.roots.flatMap (Variable.outline gridRank)) := by
    have hflatten : own.flatten =
        (c.roots.flatMap (Variable.outline gridRank)).flatMap Declaration.commands := by
      rw [List.flatMap_assoc]
      exact flatten_eq_flatMap (hown.imp fun v own ↦ Variable.typeCommands_eq)
    rw [hflatten]
    rfl
  have hmiddle : ∀ d : Declaration,
      Code.text [d, .field "ParameterBlock<CallData>" "call_data", .blankLine] =
        Code.text [d] ++ ("ParameterBlock<CallData> call_data;\n" ++ "\n") :=
    fun d ↦ text_append [d] _
  change written 0 own.flatten ++ (if (written 0 own.flatten).isEmpty then "" else "\n") ++
    "struct CallData\n\x7b\n" ++ written 1 (c.roots.map (fieldDeclaration ·.name)) ++ "\x7d;\n" ++
      "ParameterBlock<CallData> call_data;\n" ++
        (if (written 0 trampoline).isEmpty then "" else "\n" ++ written 0 trampoline) = _
  rw [htypes, text_gap hown, hthere, if_neg Bool.false_ne_true, htrampoline, outline, text_append,
    text_append, text_append, hmiddle, ← text_callData]
  simp only [String.append_assoc]

theorem code_of_build {lookup : Lookup} {settings : Settings} {f : Function} {a : Arguments}
    {o : Vectorization} {b : BuiltCall} (h : build lookup settings f a o = .ok b) :
    b.code = Code.text (b.call.outline f b.gridRank) := by
  obtain ⟨c, -, -, -, m, hm, hcode⟩ := build_eq_ok_iff.mp h
  exact hcode.trans (text_outline (bound_of_build h).function hm)

end Call

end KernelCall
