import KernelCall.Call.Emit
import KernelCall.Proofs.Code.Block
import KernelCall.Proofs.Variable.Walk

/-!
# Emitted code

The code for a variable is made of the code for its fields, and the module for a call of the code for
its roots, in order, with the fields of the call data and the trampoline behind it.
-/

namespace KernelCall

open Code

theorem Node.receivedType_eq_ok_iff {n : Node} {t : KernelType} :
    n.receivedType = .ok t ↔ n.vectorType? = some t := by
  rw [receivedType]
  cases n.vectorType? <;> simp

/-- What the code for a leaf is made of. -/
theorem Node.leafCommands_eq_ok {n : Node} {isRoot : Bool} {commands : List Command}
    (h : n.leafCommands isRoot = .ok commands) : ∃ d, n.callData = .ok d ∧
      commands = d.commands n.name ++ [mappingConstant n.name n.mapping.axes] := by
  rw [leafCommands] at h
  split at h
  · cases h
  cases hd : n.callData with
  | error e => rw [hd] at h; cases h
  | ok d =>
    rw [hd] at h
    cases h
    exact ⟨d, rfl, rfl⟩

namespace Variable

theorem fieldTypeCommands_eq_mapM (gridRank : Nat) (vs : List Variable) :
    fieldTypeCommands gridRank vs =
      List.flatten <$> vs.mapM (typeCommands gridRank false) := by
  induction vs with
  | nil => rfl
  | cons v vs ih =>
    rw [fieldTypeCommands, ih, List.mapM_cons]
    cases v.typeCommands gridRank false with
    | error e => rfl
    | ok first => cases vs.mapM (typeCommands gridRank false) <;> rfl

/-- What the code for a dictionary is made of. -/
theorem typeCommands_dict_eq_ok {gridRank : Nat} {isRoot : Bool} {n : Node} {fs : List Variable}
    {commands : List Command} (h : (dict n fs).typeCommands gridRank isRoot = .ok commands) :
    ∃ t inner accessors, n.vectorType = .ok t ∧
      List.Forall₂ (fun f own ↦ f.typeCommands gridRank false = .ok own) fs inner ∧
      List.Forall₂ (fun slot own ↦ fieldAccessors t fs slot = .ok own) n.accessedSlots accessors ∧
      commands = [.openStruct ("_t_" ++ n.name)] ++ inner.flatten ++
        fs.map (fieldDeclaration ·.name) ++ accessors.flatten ++
          [.closeStruct, mappingConstant n.name (List.range gridRank)] := by
  obtain ⟨t, ht, h⟩ := bind_eq_ok_iff.mp h
  obtain ⟨all, hall, h⟩ := bind_eq_ok_iff.mp h
  obtain ⟨accessors, haccessors, h⟩ := bind_eq_ok_iff.mp h
  cases h
  rw [fieldTypeCommands_eq_mapM] at hall
  obtain ⟨inner, hinner, rfl⟩ := map_eq_ok_iff.mp hall
  exact ⟨t, inner, accessors, ht, mapM_eq_ok_iff.mp hinner, mapM_eq_ok_iff.mp haccessors, rfl⟩

theorem typeCommands_of_part {gridRank : Nat} {isRoot : Bool} {u v : Variable}
    {commands : List Command} (h : v.typeCommands gridRank isRoot = .ok commands)
    (hu : u ∈ v.parts) : ∃ isRoot own, u.typeCommands gridRank isRoot = .ok own := by
  induction v generalizing isRoot commands with
  | leaf n =>
    rw [mem_parts_leaf.mp hu]
    exact ⟨isRoot, commands, h⟩
  | dict n fs ih =>
    rcases mem_parts_dict.mp hu with rfl | ⟨f, hf, huf⟩
    · exact ⟨isRoot, commands, h⟩
    · obtain ⟨t, inner, accessors, -, hinner, -⟩ := typeCommands_dict_eq_ok h
      obtain ⟨own, -, hown⟩ := exists_of_forall₂_left hinner hf
      exact ih f hf hown huf

end Variable

namespace Call

private theorem foldlM_emit_eq_ok {gridRank : Nat} {vs : List Variable} {m m' : Module}
    (h : vs.foldlM (fun m v ↦ v.emit gridRank true m) m = .ok m') :
    ∃ own, List.Forall₂ (fun v own ↦ v.typeCommands gridRank true = .ok own) vs own ∧
      m' = { m with
        structs := m.structs.runAll own.flatten
        callData := m.callData.runAll (vs.map (fieldDeclaration ·.name)) } := by
  induction vs generalizing m with
  | nil =>
    cases h
    exact ⟨[], .nil, rfl⟩
  | cons v vs ih =>
    rw [List.foldlM_cons] at h
    obtain ⟨m₁, hm₁, h⟩ := bind_eq_ok_iff.mp h
    obtain ⟨first, hfirst, hm₁⟩ := bind_eq_ok_iff.mp hm₁
    cases hm₁
    obtain ⟨own, hown, rfl⟩ := ih h
    refine ⟨first :: own, .cons hfirst hown, ?_⟩
    simp

/-- **What a module is made of.** -/
theorem emit_eq_ok {gridRank : Nat} {c : Call} {m : Module} (h : c.emit gridRank = .ok m) :
    ∃ own trampoline,
      List.Forall₂ (fun v own ↦ v.typeCommands gridRank true = .ok own) c.roots own ∧
        c.trampoline = .ok trampoline ∧ m = {
          structs := Block.runAll {} own.flatten
          callData := Block.runAll { indent := 1 } (c.roots.map (fieldDeclaration ·.name))
          trampoline := Block.runAll {} trampoline } := by
  obtain ⟨m', hm', h⟩ := bind_eq_ok_iff.mp h
  obtain ⟨trampoline, htrampoline, h⟩ := bind_eq_ok_iff.mp h
  cases h
  obtain ⟨own, hown, rfl⟩ := foldlM_emit_eq_ok hm'
  exact ⟨own, trampoline, hown, htrampoline, rfl⟩

theorem typeCommands_of_emit {gridRank : Nat} {c : Call} {m : Module}
    (h : c.emit gridRank = .ok m) :
    ∀ v ∈ c.roots, ∃ own, v.typeCommands gridRank true = .ok own := by
  intro v hv
  obtain ⟨own, trampoline, hown, -⟩ := emit_eq_ok h
  obtain ⟨commands, -, hcommands⟩ := exists_of_forall₂_left hown hv
  exact ⟨commands, hcommands⟩

end Call

end KernelCall
