import KernelCall.Proofs.Call.Built

/-!
# Accessors

The struct of a dictionary loads and stores each slot that the dictionary is accessed in, field by
field, through the accessors of its fields' types. Whether a field's type has them is decided by the
field's own access. A slot of primals is safe: whether it is touched depends on the mode and the
direction alone, and these a field shares with its dictionary. A slot of derivatives is there only
if the field is differentiable, which a field of a differentiable dictionary need not be.
-/

namespace KernelCall

open Code

/-! ## Access -/

namespace CallMode

/-- Derivatives are touched by backward evaluation, of what is differentiable. -/
theorem access_derivative_ne_none_iff {mode : CallMode} {differentiable : Bool} {d : Direction} :
    (mode.access differentiable d).derivative ≠ .none ↔ mode = .backward ∧ differentiable := by
  cases mode <;> cases differentiable <;> cases d <;> decide

theorem access_primal_ne_none_iff (mode : CallMode) (a b : Bool) (d : Direction) :
    (mode.access a d).primal ≠ .none ↔ (mode.access b d).primal ≠ .none := by
  cases mode <;> cases a <;> cases b <;> cases d <;> decide

end CallMode

/-! ## Storage -/

namespace Storage

theorem ofValue_eq_none_iff {t : KernelType} {a : Access} : ofValue t a = none ↔ a = .none := by
  cases a <;> simp [ofValue]

theorem ofBuffer_eq_none_iff {b : BufferValue} {a : Access} : ofBuffer b a = none ↔ a = .none := by
  cases a <;> simp [ofBuffer]

/-- No storage type begins like the name of the one that holds nothing. -/
theorem text_append_ne {s : Storage} (h : s ≠ none) (x y : String) :
    s.text ++ x ≠ noStorage ++ y := by
  intro heq
  have hlist := congrArg String.toList heq
  cases s with
  | none => exact h rfl
  | value e => simp [text, noStorage] at hlist
  | valueRef e => simp [text, noStorage] at hlist
  | buffer e n w => cases w <;> simp [text, noStorage, KernelType.accessMark] at hlist
  | texture e n w => cases w <;> simp [text, noStorage, KernelType.accessMark] at hlist

end Storage

theorem loadHead_inj {slot slot' : Slot} {t t' : String} :
    loadHead slot.name t = loadHead slot'.name t' ↔ slot = slot' ∧ t = t' := by
  rw [loadHead, loadHead, Command.line.injEq, ← String.toList_inj]
  cases slot <;> cases slot' <;> simp [Slot.name, String.toList_inj]

theorem CallData.provides_iff {d : CallData} {slot : Slot} :
    d.provides slot ↔ d.storage slot ≠ .none := by
  rw [provides, bne_iff_ne]

/-! ## Accessors of leaves -/

namespace Node

theorem Granted.access_derivative {mode : CallMode} {n : Node} (h : n.Granted mode) :
    n.access.derivative ≠ .none ↔ mode = .backward ∧ n.differentiable := by
  rw [h.access]
  exact CallMode.access_derivative_ne_none_iff

/-- A value that comes without a gradient is not differentiable. -/
theorem Granted.hasDerivative {mode : CallMode} {n : Node} (h : n.Granted mode)
    (hdiff : n.differentiable) : n.marshall.hasDerivative := by
  obtain ⟨t, -, ht⟩ := h.differentiable
  rw [ht, Bool.and_eq_true] at hdiff
  exact hdiff.2

/-- What a value with a gradient is stored as has storage for a slot that is accessed; any other
value has storage for its primal alone. -/
theorem storage_of_callData {n : Node} {d : CallData} (hd : n.callData = .ok d) :
    ((d.storage .derivative = .none ∧ n.marshall.hasDerivative = false) ∨
      (d.storage .derivative ≠ .none ↔ n.access.derivative ≠ .none)) ∧
      (n.access.primal ≠ .none → d.storage .primal ≠ .none) := by
  rw [callData] at hd
  generalize n.marshall = m at hd ⊢
  cases m with
  | value t =>
    obtain ⟨t', -, hd⟩ := bind_eq_ok_iff.mp hd
    cases hd
    exact ⟨Or.inl ⟨rfl, rfl⟩, fun _ ↦ by simp [CallData.storage]⟩
  | valueRef t =>
    obtain ⟨t', -, hd⟩ := bind_eq_ok_iff.mp hd
    cases hd
    exact ⟨Or.inl ⟨rfl, rfl⟩, fun h ↦ mt Storage.ofValue_eq_none_iff.mp h⟩
  | diffPair t needsGrad =>
    obtain ⟨t', -, hd⟩ := bind_eq_ok_iff.mp hd
    cases hd
    exact ⟨Or.inr (not_congr Storage.ofValue_eq_none_iff),
      fun h ↦ mt Storage.ofValue_eq_none_iff.mp h⟩
  | buffer b =>
    simp only at hd
    split at hd
    · cases hd
    · cases hd
      refine ⟨Or.inl ⟨rfl, rfl⟩, fun h ↦ ?_⟩
      rw [if_neg h]
      exact mt Storage.ofBuffer_eq_none_iff.mp h
  | diffBuffer b needsGrad =>
    obtain ⟨t', -, hd⟩ := bind_eq_ok_iff.mp hd
    cases hd
    exact ⟨Or.inr (not_congr Storage.ofBuffer_eq_none_iff),
      fun h ↦ mt Storage.ofBuffer_eq_none_iff.mp h⟩
  | texture t =>
    cases hd
    exact ⟨Or.inl ⟨rfl, rfl⟩, fun _ ↦ by simp [CallData.storage]⟩
  | dict =>
    cases hd

/-- A leaf's type has accessors for derivatives in backward evaluation, if the leaf is
differentiable. -/
theorem provides_derivative_iff {mode : CallMode} {n : Node} (h : n.Granted mode) {d : CallData}
    (hd : n.callData = .ok d) :
    d.provides .derivative ↔ mode = .backward ∧ n.differentiable := by
  rw [CallData.provides_iff, ← h.access_derivative]
  rcases (storage_of_callData hd).1 with ⟨hnone, hno⟩ | hiff
  · refine ⟨fun hstorage ↦ absurd hnone hstorage, fun haccess ↦ ?_⟩
    have hhas := h.hasDerivative (h.access_derivative.mp haccess).2
    rw [hno] at hhas
    cases hhas
  · exact hiff

end Node

/-! ## Accessors of dictionaries -/

theorem mem_fieldAccessors {t : KernelType} {fs : List Variable} {slot : Slot}
    {block : List Command} (h : fieldAccessors t fs slot = .ok block) :
    (loadHead slot.name (t.inSlot slot) ∈ block ∧ storeHead slot.name (t.inSlot slot) ∈ block) ∧
      ∀ f ∈ fs, accessorCall "load" slot f.name f.name ∈ block ∧
        accessorCall "store" slot f.name ("value." ++ f.name) ∈ block := by
  obtain ⟨loads, hloads, h⟩ := bind_eq_ok_iff.mp h
  cases h
  refine ⟨by simp, fun f hf ↦ ⟨?_, ?_⟩⟩
  · obtain ⟨load, hload, hfield⟩ := exists_of_forall₂_left (mapM_eq_ok_iff.mp hloads) hf
    obtain ⟨type, -, hfield⟩ := bind_eq_ok_iff.mp hfield
    cases hfield
    have hmem : accessorCall "load" slot f.name f.name ∈ loads.flatten :=
      List.mem_flatten.mpr ⟨_, hload, by simp⟩
    simp [hmem]
  · have hmem : accessorCall "store" slot f.name ("value." ++ f.name) ∈ fs.map (storeField slot) :=
      List.mem_map_of_mem hf
    simp [hmem]

theorem Node.mem_accessedSlots_iff {n : Node} {slot : Slot} :
    slot ∈ n.accessedSlots ↔ n.access.get slot ≠ .none := by
  rw [accessedSlots, List.mem_filter, bne_iff_ne]
  exact and_iff_right (by cases slot <;> decide)

namespace Variable

theorem fieldAccessors_of_typeCommands {gridRank : Nat} {isRoot : Bool} {n : Node}
    {fs : List Variable} {commands : List Command}
    (h : (dict n fs).typeCommands gridRank isRoot = .ok commands) {slot : Slot}
    (hslot : slot ∈ n.accessedSlots) :
    ∃ t block, n.vectorType = .ok t ∧ fieldAccessors t fs slot = .ok block ∧
      block <:+: commands := by
  obtain ⟨t, inner, accessors, ht, -, haccessors, rfl⟩ := typeCommands_dict_eq_ok h
  obtain ⟨block, hmem, hblock⟩ := exists_of_forall₂_left haccessors hslot
  refine ⟨t, block, ht, hblock, ?_⟩
  refine List.IsInfix.trans (List.infix_of_mem_flatten hmem) ?_
  exact ⟨_, _, rfl⟩

/-- The struct of a dictionary loads or stores a slot of a field through the accessors of the
field's type. -/
def CallsAccessor : Variable → Slot → Variable → Prop
  | leaf _, _, _ => False
  | dict n fs, slot, f => f ∈ fs ∧ slot ∈ n.accessedSlots ∧ ∃ t block, n.vectorType = .ok t ∧
      fieldAccessors t fs slot = .ok block ∧
        (accessorCall "load" slot f.name f.name ∈ block ∨
          accessorCall "store" slot f.name ("value." ++ f.name) ∈ block)

/-- The type of a variable has accessors for a slot: a struct those that it declares, the type of a
leaf those of a slot with storage. -/
def Provides (slot : Slot) : Variable → Prop
  | leaf n => ∃ d, n.callData = .ok d ∧ d.provides slot
  | dict n fs => slot ∈ n.accessedSlots ∧ ∃ t block, n.vectorType = .ok t ∧
      fieldAccessors t fs slot = .ok block ∧
        loadHead slot.name (t.inSlot slot) ∈ block ∧ storeHead slot.name (t.inSlot slot) ∈ block

/-- A struct has accessors for the slots that its dictionary is accessed in. -/
theorem provides_dict_iff {gridRank : Nat} {isRoot : Bool} {n : Node} {fs : List Variable}
    {commands : List Command} (h : (dict n fs).typeCommands gridRank isRoot = .ok commands)
    {slot : Slot} : (dict n fs).Provides slot ↔ n.access.get slot ≠ .none := by
  rw [← Node.mem_accessedSlots_iff]
  refine ⟨fun hprovides ↦ hprovides.1, fun hslot ↦ ⟨hslot, ?_⟩⟩
  obtain ⟨t, block, ht, hblock, -⟩ := fieldAccessors_of_typeCommands h hslot
  exact ⟨t, block, ht, hblock, (mem_fieldAccessors hblock).1⟩

theorem callsAccessor_iff {gridRank : Nat} {isRoot : Bool} {n : Node} {fs : List Variable}
    {commands : List Command} (h : (dict n fs).typeCommands gridRank isRoot = .ok commands)
    {f : Variable} {slot : Slot} :
    (dict n fs).CallsAccessor slot f ↔ f ∈ fs ∧ n.access.get slot ≠ .none := by
  rw [← Node.mem_accessedSlots_iff]
  refine ⟨fun hcalls ↦ ⟨hcalls.1, hcalls.2.1⟩, fun ⟨hf, hslot⟩ ↦ ⟨hf, hslot, ?_⟩⟩
  obtain ⟨t, block, ht, hblock, -⟩ := fieldAccessors_of_typeCommands h hslot
  exact ⟨t, block, ht, hblock, Or.inl ((mem_fieldAccessors hblock).2 f hf).1⟩

theorem provides_derivative_iff {mode : CallMode} {gridRank : Nat} {isRoot : Bool} {v : Variable}
    {commands : List Command} (h : v.typeCommands gridRank isRoot = .ok commands)
    (hgranted : v.node.Granted mode) :
    v.Provides .derivative ↔ mode = .backward ∧ v.node.differentiable := by
  cases v with
  | leaf n =>
    obtain ⟨d, hd, -⟩ := Node.leafCommands_eq_ok h
    rw [← Node.provides_derivative_iff hgranted hd]
    refine ⟨?_, fun hprovides ↦ ⟨d, hd, hprovides⟩⟩
    rintro ⟨d', hd', hprovides⟩
    rw [hd] at hd'
    cases hd'
    exact hprovides
  | dict n fs =>
    rw [provides_dict_iff h]
    exact hgranted.access_derivative

theorem provides_primal {gridRank : Nat} {isRoot : Bool} {v : Variable} {commands : List Command}
    (h : v.typeCommands gridRank isRoot = .ok commands) (hprimal : v.node.access.primal ≠ .none) :
    v.Provides .primal := by
  cases v with
  | leaf n =>
    obtain ⟨d, hd, -⟩ := Node.leafCommands_eq_ok h
    exact ⟨d, hd, CallData.provides_iff.mpr ((Node.storage_of_callData hd).2 hprimal)⟩
  | dict n fs => exact (provides_dict_iff h).mpr hprimal

end Variable

namespace Call

/-- Every accessor that the struct of a dictionary calls is there: the field's type has it. -/
def AccessorsClosed (c : Call) : Prop :=
  ∀ v ∈ c.roots, ∀ u ∈ v.parts, ∀ (f : Variable) (slot : Slot), u.CallsAccessor slot f →
    f.Provides slot

/-- Every field of a differentiable dictionary is differentiable. -/
def FieldsDifferentiable (c : Call) : Prop :=
  ∀ v ∈ c.roots, ∀ n fs, Variable.dict n fs ∈ v.parts → n.differentiable →
    ∀ f ∈ fs, f.node.differentiable

section

variable {lookup : Lookup} {settings : Settings} {f : Function} {a : Arguments}
  {o : Vectorization} {b : BuiltCall} (h : build lookup settings f a o = .ok b) {v : Variable}
  (hv : v ∈ b.call.roots) {n : Node} {fs : List Variable} (hn : .dict n fs ∈ v.parts)

include h hv hn

theorem callsAccessor_iff_of_build {g : Variable} {slot : Slot} :
    (Variable.dict n fs).CallsAccessor slot g ↔ g ∈ fs ∧ n.access.get slot ≠ .none := by
  obtain ⟨isRoot, own, hown⟩ := typeCommands_of_build h hv hn
  exact Variable.callsAccessor_iff hown

theorem provides_derivative_iff_of_build {g : Variable} (hg : g ∈ fs) :
    g.Provides .derivative ↔ settings.mode = .backward ∧ g.node.differentiable := by
  have hfield := Variable.field_mem_parts hg hn
  obtain ⟨isRoot, own, hown⟩ := typeCommands_of_build h hv hfield
  exact Variable.provides_derivative_iff hown
    (granted_of_build h v hv _ (Variable.node_mem_nodes hfield))

/-- A field travels the way of its dictionary, and that decides on the primal. -/
theorem provides_primal_of_build {g : Variable} (hg : g ∈ fs)
    (haccess : n.access.primal ≠ .none) : g.Provides .primal := by
  have hgranted := granted_of_build h v hv
  have hfield := Variable.field_mem_parts hg hn
  have hnode := hgranted _ (Variable.node_mem_nodes hfield)
  obtain ⟨isRoot, own, hown⟩ := typeCommands_of_build h hv hfield
  obtain ⟨path, target, hvbound⟩ := (bound_of_build h).boundTo hv
  obtain ⟨path, target, hbound⟩ := hvbound.part hn
  refine Variable.provides_primal hown ?_
  rw [hnode.access, (hbound.modifiers hg).1]
  rw [(hgranted n (Variable.node_mem_nodes hn)).access] at haccess
  exact (CallMode.access_primal_ne_none_iff _ _ _ _).mp haccess

end

/-- **When accessors are closed.** Forward evaluation only calls accessors that are there. Backward
evaluation does so exactly if every field of a differentiable dictionary is differentiable; otherwise
the dictionary's struct moves a gradient into a field that has no room for one. -/
theorem accessorsClosed_iff {lookup : Lookup} {settings : Settings} {f : Function} {a : Arguments}
    {o : Vectorization} {b : BuiltCall} (h : build lookup settings f a o = .ok b) :
    b.call.AccessorsClosed ↔ settings.mode = .forward ∨ b.call.FieldsDifferentiable := by
  have hgranted := granted_of_build h
  constructor
  · intro hclosed
    by_cases hmode : settings.mode = .forward
    · exact Or.inl hmode
    have hbackward : settings.mode = .backward := by
      cases hm : settings.mode with
      | forward => exact absurd hm hmode
      | backward => rfl
    refine Or.inr fun v hv n fs hn hdiff g hg ↦ ?_
    have haccess : n.access.get .derivative ≠ .none :=
      (hgranted v hv n (Variable.node_mem_nodes hn)).access_derivative.mpr ⟨hbackward, hdiff⟩
    have hcalls := (callsAccessor_iff_of_build h hv hn).mpr ⟨hg, haccess⟩
    have hprovides := hclosed v hv _ hn g .derivative hcalls
    exact ((provides_derivative_iff_of_build h hv hn hg).mp hprovides).2
  · intro hcond v hv u hu g slot hcalls
    cases u with
    | leaf n => exact hcalls.elim
    | dict n fs =>
      obtain ⟨hg, haccess⟩ := (callsAccessor_iff_of_build h hv hu).mp hcalls
      cases slot with
      | primal => exact provides_primal_of_build h hv hu hg haccess
      | derivative =>
        have hn := hgranted v hv n (Variable.node_mem_nodes hu)
        obtain ⟨hbackward, hdiff⟩ := hn.access_derivative.mp haccess
        refine (provides_derivative_iff_of_build h hv hu hg).mpr ⟨hbackward, ?_⟩
        rcases hcond with hforward | hfields
        · rw [hforward] at hbackward
          cases hbackward
        · exact hfields v hv n fs hu hdiff g hg

/-- A point of the plane, differentiable. -/
def planePoint : KernelType :=
  .struct "Point" [("x", .scalar .float), ("y", .scalar .float)] true

/-- A kernel that takes a point. -/
def measure : Function where
  name := "measure"
  params := [{ name := "p", type := planePoint }]
  differentiable := true

/-- A point of which one coordinate carries a gradient, the other being a plain number. -/
def mixedPoint : Arguments where
  args := [.dict [("x", .diffPair 0 0 true), ("y", .int 1)]]

/-- A point of which both coordinates carry a gradient. -/
def pairedPoint : Arguments where
  args := [.dict [("x", .diffPair 0 0 true), ("y", .diffPair 0 0 true)]]

/-- A coordinate without a gradient leaves the point's struct with a call of an accessor that the
coordinate's type lacks. -/
theorem not_accessorsClosed_mixedPoint :
    ∃ b, build ⟨.standard, .builtin⟩ { mode := .backward } measure mixedPoint {} = .ok b ∧
      ¬ b.call.AccessorsClosed := by
  refine ⟨_, rfl, fun h ↦ ?_⟩
  obtain ⟨d, hd, hprovides⟩ := h _ List.mem_cons_self _ (Variable.self_mem_parts _) _ .derivative
    ⟨List.mem_cons_of_mem _ List.mem_cons_self, by decide, _, _, rfl, rfl, Or.inl (by simp)⟩
  cases hd
  cases hprovides

theorem accessorsClosed_pairedPoint :
    ∃ b, build ⟨.standard, .builtin⟩ { mode := .backward } measure pairedPoint {} = .ok b ∧
      b.call.AccessorsClosed := by
  refine ⟨_, rfl, (@accessorsClosed_iff ⟨.standard, .builtin⟩ { mode := .backward } measure
    pairedPoint {} _ rfl).mpr (Or.inr fun v hv n fs hn _ f hf ↦ ?_)⟩
  cases List.mem_singleton.mp hv
  rcases Variable.mem_parts_dict.mp hn with hn | ⟨g, hg, hn⟩
  · cases hn
    rcases List.mem_cons.mp hf with rfl | hf
    · rfl
    · cases List.mem_singleton.mp hf
      rfl
  · rcases List.mem_cons.mp hg with rfl | hg
    · cases Variable.mem_parts_leaf.mp hn
    · cases List.mem_singleton.mp hg
      cases Variable.mem_parts_leaf.mp hn

end Call

end KernelCall
