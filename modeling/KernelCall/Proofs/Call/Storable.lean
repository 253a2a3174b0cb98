import KernelCall.Proofs.Call.Emitted

/-!
# Calls that have code

A call is turned into code once every variable has a type and every leaf can be stored. One reason to
refuse is left: a root leaf that the kernel writes must be writable, since what is written has to
reach the host. The fields of a dictionary are not asked, whatever the access to them.
-/

namespace KernelCall

open Code

/-! ## Leaves -/

namespace Node

/-- The kernel writes the node's value, which the host does not let it do. -/
def Blocked (n : Node) : Prop := n.access.primal.writes ∧ n.marshall.isWritable = false

instance (n : Node) : Decidable n.Blocked := inferInstanceAs (Decidable (_ ∧ _))

/-- The error of a root that is blocked. -/
def writeFault (n : Node) : BindError :=
  (Fault.notWritable n.path n.marshall.typeName).blame n.path

theorem leafCommands_of_blocked {n : Node} (h : n.Blocked) :
    n.leafCommands true = .error n.writeFault := by
  rw [leafCommands, h.1, h.2]
  rfl

theorem leafCommands_of_callData {n : Node} {d : CallData} (hd : n.callData = .ok d) {isRoot : Bool}
    (h : isRoot → ¬ n.Blocked) :
    n.leafCommands isRoot = .ok (d.commands n.name ++ [mappingConstant n.name n.mapping.axes]) := by
  have hopen : ¬ (n.access.primal.writes && !n.marshall.isWritable && isRoot) := by
    intro hblocked
    simp only [Bool.and_eq_true, Bool.not_eq_true'] at hblocked
    exact h hblocked.2 hblocked.1
  rw [leafCommands, if_neg hopen, hd]

theorem vectorType_of_vectorType? {n : Node} {t : KernelType} (h : n.vectorType? = some t) :
    n.vectorType = .ok t := by
  rw [vectorType, h]

end Node

/-! ## Variables -/

namespace Variable

/-- Every node has a type, and every leaf can be stored. -/
structure Storable (v : Variable) : Prop where
  typed : ∀ n ∈ v.nodes, ∃ t, n.vectorType? = some t
  stored : ∀ n ∈ v.leaves, ∃ d, n.callData = .ok d

theorem Storable.field {n : Node} {fs : List Variable} (h : (dict n fs).Storable) {f : Variable}
    (hf : f ∈ fs) : f.Storable where
  typed m hm := h.typed m (mem_nodes_of_field hf hm)
  stored m hm := h.stored m (mem_leaves_of_field hf hm)

theorem Storable.vectorType {v : Variable} (h : v.Storable) : ∃ t, v.node.vectorType = .ok t := by
  obtain ⟨t, ht⟩ := h.typed v.node (node_mem_nodes (self_mem_parts v))
  exact ⟨t, Node.vectorType_of_vectorType? ht⟩

theorem Storable.fieldAccessors {fs : List Variable} (h : ∀ f ∈ fs, f.Storable) (t : KernelType)
    (slot : Slot) : ∃ own, fieldAccessors t fs slot = .ok own := by
  have hloads : ∃ loads, fs.mapM (loadField slot) = .ok loads := by
    refine exists_mapM_ok fun f hf ↦ ?_
    obtain ⟨u, hu⟩ := (h f hf).vectorType
    rw [loadField, hu]
    exact ⟨_, rfl⟩
  obtain ⟨loads, hloads⟩ := hloads
  rw [KernelCall.fieldAccessors, hloads]
  exact ⟨_, rfl⟩

private theorem exists_typeCommands_dict {gridRank : Nat} {isRoot : Bool} {n : Node}
    {fs : List Variable} (h : (dict n fs).Storable)
    (hfields : ∀ f ∈ fs, ∃ own, f.typeCommands gridRank false = .ok own) :
    ∃ own, (dict n fs).typeCommands gridRank isRoot = .ok own := by
  obtain ⟨t, ht⟩ := h.vectorType
  obtain ⟨inner, hinner⟩ := exists_mapM_ok hfields
  obtain ⟨accessors, haccessors⟩ := exists_mapM_ok fun slot (_ : slot ∈ n.accessedSlots) ↦
    Storable.fieldAccessors (fun f hf ↦ h.field hf) t slot
  rw [node_dict] at ht
  rw [typeCommands, ht, fieldTypeCommands_eq_mapM, hinner]
  change ∃ own, (n.accessedSlots.mapM (KernelCall.fieldAccessors t fs) >>= _) = Except.ok own
  rw [haccessors]
  exact ⟨_, rfl⟩

/-- Below a root nothing is refused. -/
theorem Storable.typeCommands {v : Variable} (h : v.Storable) (gridRank : Nat) :
    ∃ own, v.typeCommands gridRank false = .ok own := by
  induction v with
  | leaf n =>
    obtain ⟨d, hd⟩ := h.stored n (by simp)
    exact ⟨_, Node.leafCommands_of_callData hd nofun⟩
  | dict n fs ih => exact exists_typeCommands_dict h fun f hf ↦ ih f hf (h.field hf)

/-- The error of a root that is a blocked leaf. -/
def fault? : Variable → Option BindError
  | leaf n => if n.Blocked then some n.writeFault else none
  | dict .. => none

theorem fault?_eq_some_iff {v : Variable} {e : BindError} :
    v.fault? = some e ↔ ∃ n, v = leaf n ∧ n.Blocked ∧ e = n.writeFault := by
  cases v with
  | leaf n => by_cases hblocked : n.Blocked <;> simp [fault?, hblocked, eq_comm]
  | dict n fs => simp [fault?]

/-- **A root has code unless it is a blocked leaf.** -/
theorem Storable.typeCommands_root {v : Variable} (h : v.Storable) (gridRank : Nat) :
    match v.fault? with
    | none => ∃ own, v.typeCommands gridRank true = .ok own
    | some e => v.typeCommands gridRank true = .error e := by
  cases v with
  | leaf n =>
    by_cases hblocked : n.Blocked
    · rw [fault?, if_pos hblocked]
      exact Node.leafCommands_of_blocked hblocked
    · obtain ⟨d, hd⟩ := h.stored n (by simp)
      rw [fault?, if_neg hblocked]
      exact ⟨_, Node.leafCommands_of_callData hd fun _ ↦ hblocked⟩
  | dict n fs => exact exists_typeCommands_dict h fun f hf ↦ (h.field hf).typeCommands gridRank

theorem Storable.formal {v : Variable} (h : v.Storable) : ∃ text, v.formal = .ok text := by
  obtain ⟨t, ht⟩ := h.vectorType
  rw [Variable.formal, ht]
  exact ⟨_, rfl⟩

end Variable

/-! ## Calls -/

namespace Call

private theorem foldlM_emit_of_storable {vs : List Variable} (h : ∀ v ∈ vs, v.Storable)
    (gridRank : Nat) (m : Module) :
    match vs.findSome? Variable.fault? with
    | none => ∃ m', vs.foldlM (fun m v ↦ v.emit gridRank true m) m = .ok m'
    | some e => vs.foldlM (fun m v ↦ v.emit gridRank true m) m = .error e := by
  induction vs generalizing m with
  | nil => exact ⟨m, rfl⟩
  | cons v vs ih =>
    rw [List.forall_mem_cons] at h
    rw [List.foldlM_cons, List.findSome?_cons]
    have hroot := h.1.typeCommands_root gridRank
    cases hfault : v.fault? with
    | none =>
      rw [hfault] at hroot
      obtain ⟨own, hown⟩ := hroot
      rw [Variable.emit, hown]
      exact ih h.2 _
    | some e =>
      rw [hfault] at hroot
      rw [Variable.emit, hroot]
      rfl

/-- **The error of a call that has no code** is that of its first blocked root. -/
theorem emit_of_fault? {f : Function} {c : Call} (hf : c.function? = some f)
    (h : ∀ v ∈ c.roots, v.Storable) (gridRank : Nat) :
    match c.roots.findSome? Variable.fault? with
    | none => ∃ m, c.emit gridRank = .ok m
    | some e => c.emit gridRank = .error e := by
  have htrampoline : ∃ commands, c.trampoline = .ok commands := by
    obtain ⟨formals, hformals⟩ := exists_mapM_ok fun v hv ↦ (h v hv).formal
    rw [trampoline, hf]
    change ∃ commands, (c.roots.mapM Variable.formal >>= _) = Except.ok commands
    rw [hformals]
    exact ⟨_, rfl⟩
  obtain ⟨commands, hcommands⟩ := htrampoline
  have hroots := foldlM_emit_of_storable h gridRank {}
  rw [emit]
  cases hfault : c.roots.findSome? Variable.fault? with
  | none =>
    rw [hfault] at hroots
    obtain ⟨m, hm⟩ := hroots
    rw [hm, hcommands]
    exact ⟨_, rfl⟩
  | some e =>
    rw [hfault] at hroots
    rw [hroots]
    rfl

/-- **A bound call has code unless a root leaf is blocked,** and then it fails with the error of such
a leaf. -/
theorem emit_of_storable {f : Function} {c : Call} (hf : c.function? = some f)
    (h : ∀ v ∈ c.roots, v.Storable) (gridRank : Nat) :
    (∃ m, c.emit gridRank = .ok m) ∨
      ∃ n, .leaf n ∈ c.roots ∧ n.Blocked ∧ c.emit gridRank = .error n.writeFault := by
  have hemit := emit_of_fault? hf h gridRank
  cases hfault : c.roots.findSome? Variable.fault? with
  | none =>
    rw [hfault] at hemit
    exact Or.inl hemit
  | some e =>
    rw [hfault] at hemit
    obtain ⟨v, hv, hve⟩ := List.exists_of_findSome?_eq_some hfault
    obtain ⟨n, rfl, hblocked, rfl⟩ := Variable.fault?_eq_some_iff.mp hve
    exact Or.inr ⟨n, hv, hblocked, hemit⟩

end Call

end KernelCall
