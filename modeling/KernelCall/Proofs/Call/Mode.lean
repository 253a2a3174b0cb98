import KernelCall.Proofs.Call.Storable
import KernelCall.Proofs.Call.Trampoline

/-!
# The mode of a call

A call is built for forward or for backward evaluation. Binding, overriding, resolving and aligning
know nothing of the mode; it enters where the access to the slots of a variable is decided, and from
there it reaches the storage of leaves and nothing else. So the two builds of a call agree on
everything but access.

They also fail together, except for one error. Forward evaluation writes outputs, and refuses a root
whose host value cannot be written. Backward evaluation writes no primal at all, and the derivatives
that it asks for are there: a value without room for a gradient is never differentiable.
-/

namespace KernelCall

/-! ## Nodes -/

namespace Node

/-- The nodes are the same, the access to them apart. -/
def SameButAccess (n m : Node) : Prop := m = { n with access := m.access }

theorem SameButAccess.sameText {n m : Node} (h : n.SameButAccess m) : n.SameText m := by
  rw [h]
  exact ⟨rfl, rfl, rfl⟩

theorem differentiate_eq_ok {mode : CallMode} {n m : Node} (h : n.differentiate mode = .ok m) :
    m.Granted mode ∧ ∃ differentiable access, m = { n with differentiable, access } := by
  obtain ⟨t, ht, h⟩ := bind_eq_ok_iff.mp h
  cases h
  have htype : n.vectorType? = some t := by
    rw [vectorType] at ht
    cases hn : n.vectorType? with
    | none => rw [hn] at ht; cases ht
    | some u => rw [hn] at ht; cases ht; rfl
  exact ⟨⟨⟨t, htype, rfl⟩, rfl⟩, _, _, rfl⟩

theorem exists_differentiate (mode : CallMode) {n : Node} {t : KernelType}
    (ht : n.vectorType? = some t) : ∃ m, n.differentiate mode = .ok m := by
  rw [differentiate, vectorType_of_vectorType? ht]
  exact ⟨_, rfl⟩

/-- Whether a node is differentiable is the same in either mode. -/
theorem sameButAccess_of_differentiate {mode mode' : CallMode} {n m m' : Node}
    (h : n.differentiate mode = .ok m) (h' : n.differentiate mode' = .ok m') :
    m.SameButAccess m' := by
  obtain ⟨t, ht, h⟩ := bind_eq_ok_iff.mp h
  obtain ⟨t', ht', h'⟩ := bind_eq_ok_iff.mp h'
  cases ht.symm.trans ht'
  cases h
  cases h'
  rfl

/-- Access to a gradient is granted only if the node has one. -/
theorem Granted.derivative_eq_none {mode : CallMode} {n : Node} (h : n.Granted mode)
    (hplain : n.differentiable = false) : n.access.derivative = .none := by
  rw [h.access, hplain]
  exact CallMode.access_derivative_of_not_differentiable mode n.direction

/-- **Gradients have room.** A leaf whose access was decided can be stored. -/
theorem Granted.exists_callData {mode : CallMode} {n : Node} (h : n.Granted mode)
    (hdict : n.marshall ≠ .dict) : ∃ d, n.callData = .ok d := by
  obtain ⟨t, ht, hdiff⟩ := h.differentiable
  have hreceived : n.receivedType = .ok t := by rw [receivedType, ht]
  rw [callData, hreceived]
  cases hm : n.marshall with
  | dict => exact absurd hm hdict
  | buffer b =>
    -- a plain buffer comes without a gradient, so that no derivative is ever touched
    have hplain : n.differentiable = false := by
      rw [hdiff, hm]
      exact Bool.and_false _
    rw [h.derivative_eq_none hplain]
    exact ⟨_, rfl⟩
  | value | valueRef | diffPair | diffBuffer | texture => exact ⟨_, rfl⟩

/-- Only what travels out is blocked in forward evaluation. -/
theorem Granted.direction_of_blocked {n : Node} (h : n.Granted .forward) (hblocked : n.Blocked) :
    n.direction = .output ∨ n.direction = .inputOutput := by
  have hwrites := hblocked.1
  rw [h.access] at hwrites
  cases hdirection : n.direction with
  | input =>
    rw [hdirection] at hwrites
    cases hwrites
  | output => exact Or.inl rfl
  | inputOutput => exact Or.inr rfl

/-- Nothing is blocked in backward evaluation. -/
theorem Granted.not_blocked {n : Node} (h : n.Granted .backward) : ¬ n.Blocked := by
  intro hblocked
  have hwrites := hblocked.1
  rw [h.access, CallMode.backward_access_primal_writes] at hwrites
  cases hwrites

end Node

/-! ## Calls before the mode is known -/

namespace Call

/-- A call as it is before derivatives are decided on: bound, with a type at every node, and with
dictionaries carried by their fields. -/
structure Typed (f : Function) (c : Call) : Prop where
  function : c.function? = some f
  typed : ∀ v ∈ c.roots, ∀ n ∈ v.nodes, ∃ t, n.vectorType? = some t
  carried : ∀ n ∈ c.leaves, n.marshall ≠ .dict

theorem typed_of_prepare {layout : Layout} {f : Function} {a : Arguments} {o : Vectorization}
    {c' : Call} (h : prepare ⟨layout, .builtin⟩ f a o = .ok c') : c'.Typed f := by
  obtain ⟨c, hc, hresolved⟩ := prepare_eq_ok_iff.mp h
  have hfunction : c'.function? = c.function? := (withVariables?_eq_some_iff.mp hresolved).2.2
  refine ⟨hfunction.trans (bound_of_designated? hc).function, fun w hw ↦ ?_, ?_⟩
  · obtain ⟨v, -, hvw⟩ := exists_of_mem_mapM (roots_of_mapM? hresolved) hw
    have htyped : Variable.Related (fun _ m ↦ ∃ t, m.vectorType? = some t) v w := by
      refine Variable.related_of_walk? (fun n m hm ↦ ?_) (fun fs n m hm ↦ ?_) hvw
      · obtain ⟨_, t, _, -, rfl⟩ := Node.resolvedLeaf?_eq_some hm
        exact ⟨t, rfl⟩
      · obtain ⟨t, rfl⟩ := Node.resolvedContainer?_eq_some hm
        exact ⟨t, rfl⟩
    exact htyped.forall_nodes (fun _ _ hm (_ : True) ↦ hm) fun _ _ ↦ trivial
  · obtain ⟨c₀, c₁, hc₀, hc₁, -, hdesignated⟩ := designated?_eq_some_iff.mp hc
    obtain ⟨hargs, hkwargs, -⟩ := related_of_designate? hdesignated
    obtain ⟨-, hrebound, -⟩ := bound_of_bind (name_of_mem_args hc₀) hc₁
    -- a marshall stays at its leaf through all passes
    have hplain₁ : ∀ n ∈ c₁.leaves, n.Plain .builtin := by
      refine Variable.forall_leaves_of_related hrebound ?_ (plain_of_ofArguments hc₀)
      rintro n m ⟨_, _, _, _, rfl⟩ hn
      exact hn
    have hplain : ∀ n ∈ c.leaves, n.Plain .builtin := by
      refine Variable.forall_leaves_of_related (List.rel_append hargs hkwargs) ?_ hplain₁
      rintro n m ⟨_, rfl⟩ hn
      exact hn
    intro m hm
    obtain ⟨n, hn, hnm⟩ := exists_of_forall₂_right (leaves_of_resolved? hresolved) hm
    obtain ⟨_, _, _, -, rfl⟩ := Node.resolvedLeaf?_eq_some hnm
    obtain ⟨x, hx, hcarried⟩ := hplain n hn
    exact MarshallRegistry.ne_dict_of_forValue hx hcarried

theorem Typed.align {f : Function} {c c' : Call} {dispatch : Dispatch} (h : c.Typed f)
    (hc' : (c.align dispatch).result? = some c') : c'.Typed f := by
  rw [result?_align] at hc'
  have hkept : ∀ {n m : Node}, (n.align dispatch).toOption = some m →
      m.vectorType? = n.vectorType? ∧ m.marshall = n.marshall := by
    intro n m hm
    obtain ⟨d, -, -, -, rfl⟩ := Node.align_eq_ok_iff.mp (toOption_eq_some_iff.mp hm)
    rw [Node.placed]
    split <;> exact ⟨rfl, rfl⟩
  refine ⟨(withVariables?_eq_some_iff.mp hc').2.2.trans h.function, fun w hw ↦ ?_, fun m hm ↦ ?_⟩
  · obtain ⟨v, hv, hvw⟩ := exists_of_mem_mapM (roots_of_mapM? hc') hw
    have htypes : Variable.Related (fun n m ↦ m.vectorType? = n.vectorType?) v w := by
      refine Variable.related_of_walk? (fun n m hm ↦ (hkept hm).1) (fun fs n m hm ↦ ?_) hvw
      cases hm
      rfl
    exact htypes.forall_nodes (fun n m hnm ↦ hnm ▸ id) (h.typed v hv)
  · obtain ⟨n, hn, hnm⟩ := exists_of_forall₂_right (leaves_of_mapM? hc') hm
    rw [(hkept hnm).2]
    exact h.carried n hn

/-! ## Deciding on derivatives -/

/-- The calls are the same, the access to their variables apart. -/
structure SameButAccess (c c' : Call) : Prop where
  function : c'.function? = c.function?
  args : List.Forall₂ (Variable.Related Node.SameButAccess) c.args c'.args
  kwargs : List.Forall₂ (Variable.Related Node.SameButAccess) c.kwargs c'.kwargs

theorem SameButAccess.roots {c c' : Call} (h : c.SameButAccess c') :
    List.Forall₂ (Variable.Related Node.SameButAccess) c.roots c'.roots :=
  List.rel_append h.args h.kwargs

theorem Typed.differentiate {f : Function} {c : Call} (h : c.Typed f) (mode : CallMode) :
    ∃ c', (c.differentiate mode).result? = some c' ∧ c'.function? = some f ∧
      (∀ v ∈ c'.roots, ∀ n ∈ v.nodes, n.Granted mode) ∧ ∀ v ∈ c'.roots, v.Storable := by
  have hnode : ∀ v ∈ c.roots, ∀ n ∈ v.nodes, ∃ m, (n.differentiate mode).toOption = some m := by
    intro v hv n hn
    obtain ⟨t, ht⟩ := h.typed v hv n hn
    obtain ⟨m, hm⟩ := Node.exists_differentiate mode ht
    exact ⟨m, toOption_eq_some_iff.mpr hm⟩
  rw [result?_differentiate]
  obtain ⟨c', hc'⟩ := exists_mapM? fun v hv ↦ Variable.exists_walk?
    (fun n hn ↦ hnode v hv n (Variable.mem_nodes_of_mem_leaves hn))
    fun n gs hn (_ : List Variable) ↦ hnode v hv n (Variable.node_mem_nodes hn)
  have hgranted : ∀ v ∈ c'.roots, ∀ n ∈ v.nodes, n.Granted mode := by
    intro w hw
    obtain ⟨v, -, hvw⟩ := exists_of_mem_mapM (roots_of_mapM? hc') hw
    have hrel : Variable.Related (fun _ m ↦ m.Granted mode) v w :=
      Variable.related_of_walk?
        (fun _ _ hm ↦ (Node.differentiate_eq_ok (toOption_eq_some_iff.mp hm)).1)
        (fun _ _ _ hm ↦ (Node.differentiate_eq_ok (toOption_eq_some_iff.mp hm)).1) hvw
    exact hrel.forall_nodes (fun _ _ hm (_ : True) ↦ hm) fun _ _ ↦ trivial
  have hcarried : ∀ n ∈ c'.leaves, n.marshall ≠ .dict := by
    intro m hm
    obtain ⟨n, hn, hnm⟩ := exists_of_forall₂_right (leaves_of_mapM? hc') hm
    obtain ⟨-, _, _, rfl⟩ := Node.differentiate_eq_ok (toOption_eq_some_iff.mp hnm)
    exact h.carried n hn
  refine ⟨c', hc', (withVariables?_eq_some_iff.mp hc').2.2.trans h.function, hgranted, ?_⟩
  refine fun v hv ↦ ⟨fun n hn ↦ ?_, fun n hn ↦ ?_⟩
  · obtain ⟨t, ht, -⟩ := (hgranted v hv n hn).differentiable
    exact ⟨t, ht⟩
  · refine (hgranted v hv n (Variable.mem_nodes_of_mem_leaves hn)).exists_callData ?_
    exact hcarried n (List.mem_flatMap.mpr ⟨v, hv, hn⟩)

theorem sameButAccess_of_differentiate {mode mode' : CallMode} {c c₁ c₂ : Call}
    (h₁ : (c.differentiate mode).result? = some c₁)
    (h₂ : (c.differentiate mode').result? = some c₂) : c₁.SameButAccess c₂ := by
  rw [result?_differentiate] at h₁ h₂
  obtain ⟨hargs, hkwargs, hfunction⟩ := withVariables?_eq_some_iff.mp h₁
  obtain ⟨hargs', hkwargs', hfunction'⟩ := withVariables?_eq_some_iff.mp h₂
  have hnodes : ∀ n m m', (Node.differentiate mode n).toOption = some m →
      (Node.differentiate mode' n).toOption = some m' → m.SameButAccess m' := fun n m m' hm hm' ↦
    Node.sameButAccess_of_differentiate (toOption_eq_some_iff.mp hm) (toOption_eq_some_iff.mp hm')
  have hroots : ∀ v w w', Variable.walk? (fun n ↦ (n.differentiate mode).toOption)
        (fun _ n ↦ (n.differentiate mode).toOption) v = some w →
      Variable.walk? (fun n ↦ (n.differentiate mode').toOption)
        (fun _ n ↦ (n.differentiate mode').toOption) v = some w' →
      Variable.Related Node.SameButAccess w w' := fun v w w' ↦
    Variable.related_of_walks hnodes fun _ _ ↦ hnodes
  refine ⟨hfunction'.trans hfunction.symm, ?_, ?_⟩
  · exact forall₂_of_common (mapM_eq_some_iff.mp hargs) (mapM_eq_some_iff.mp hargs')
      fun v _ ↦ hroots v
  · exact forall₂_of_common (mapM_eq_some_iff.mp hkwargs) (mapM_eq_some_iff.mp hkwargs')
      fun v _ ↦ hroots v

/-! ## What does not depend on access -/

theorem SameButAccess.signature_eq {c c' : Call} (h : c.SameButAccess c') :
    c.signature = c'.signature := by
  refine signature_eq_of_related ?_ (h.roots.imp fun _ _ hvw ↦ hvw.imp fun _ _ ↦
    Node.SameButAccess.sameText)
  rw [functionName, functionName, h.function]

theorem SameButAccess.trampoline_eq {f : Function} {c c' : Call} (h : c.SameButAccess c')
    (hc : c.Bound f) (hc' : c'.Bound f) : c.trampoline = c'.trampoline := by
  have hformals : c.roots.map Variable.formal = c'.roots.map Variable.formal := by
    refine map_eq_of_forall₂ (h.roots.imp fun v w hvw ↦ ?_)
    rw [Variable.formal, Variable.formal, Variable.name, Variable.name, hvw.node]
    rfl
  have hmapM : c.roots.mapM Variable.formal = c'.roots.mapM Variable.formal := by
    have hid := congrArg (List.mapM id) hformals
    rwa [List.mapM_map, List.mapM_map] at hid
  have hstatement : c.statement f = c'.statement f := by
    refine hc.statement_eq hc' (h.roots.imp fun v w hvw ↦ ?_) (h.roots.imp fun v w hvw ↦ ?_)
    · rw [Variable.name, Variable.name, hvw.node]
    · rw [hvw.node]
  rw [trampoline, trampoline, hc.function, hc'.function, hmapM]
  simp only [hstatement]

/-! ## Two builds -/

section

variable {lookup : Lookup} {f : Function} {a : Arguments} {o : Vectorization} {mode : CallMode}
  {strict : Bool} {c c₁ c₂ : Call}

theorem build_of_prepare_error {e : BindError} (h : prepare lookup f a o = .error e)
    (settings : Settings) : build lookup settings f a o = .error e := by
  rw [build, h]
  rfl

theorem build_of_align_error {e : BindError} (h : prepare lookup f a o = .ok c)
    (halign : (c.align ⟨c.gridRank, strict⟩).toExcept = .error e) :
    build lookup ⟨mode, strict⟩ f a o = .error e := by
  rw [build, h]
  change ((c.align ⟨c.gridRank, strict⟩).toExcept >>= _) = _
  rw [halign]
  rfl

/-- Once derivatives are decided on, a build depends on whether there is code. -/
theorem build_of_differentiate (h : prepare lookup f a o = .ok c)
    (halign : (c.align ⟨c.gridRank, strict⟩).toExcept = .ok c₁)
    (hdiff : (c₁.differentiate mode).result? = some c₂) :
    build lookup ⟨mode, strict⟩ f a o = c₂.emit c.gridRank >>= fun m ↦
      .ok { call := c₂, gridRank := c.gridRank, code := m.text } := by
  rw [Progress.result?_eq_some_iff] at hdiff
  rw [build, h]
  change ((c.align ⟨c.gridRank, strict⟩).toExcept >>= _) = _
  rw [halign]
  change ((c₁.differentiate mode).toExcept >>= _) = _
  rw [hdiff]
  rfl

end

theorem SameButAccess.trampoline_of_emit {f : Function} {c c' : Call} {gridRank : Nat}
    {m m' : Code.Module} (h : c.SameButAccess c') (hc : c.Bound f) (hc' : c'.Bound f)
    (hm : c.emit gridRank = .ok m) (hm' : c'.emit gridRank = .ok m') :
    m.trampoline = m'.trampoline := by
  obtain ⟨-, commands, -, hcommands, rfl⟩ := emit_eq_ok hm
  obtain ⟨-, commands', -, hcommands', rfl⟩ := emit_eq_ok hm'
  rw [h.trampoline_eq hc hc', hcommands'] at hcommands
  cases hcommands
  rfl

/-- A root leaf that is blocked in forward evaluation travels out, carries a value that cannot be
written, and is refused for it. It stands in every call that differs in access. -/
theorem SameButAccess.exists_fixed {c c' : Call} (h : c.SameButAccess c') {n : Node}
    (hn : .leaf n ∈ c.roots) (hgranted : n.Granted .forward) (hblocked : n.Blocked) :
    ∃ m, .leaf m ∈ c'.roots ∧ (m.direction = .output ∨ m.direction = .inputOutput) ∧
      m.marshall.isWritable = false ∧
        n.writeFault = (Fault.notWritable m.path m.marshall.typeName).blame m.path := by
  obtain ⟨w, hw, hnw⟩ := exists_of_forall₂_left h.roots hn
  obtain ⟨m, rfl, hm⟩ := Variable.related_leaf_iff.mp hnw
  have hdirection := hgranted.direction_of_blocked hblocked
  have hfixed := hblocked.2
  -- direction, value and path are no matter of access
  have hkept : n.direction = m.direction ∧ n.marshall = m.marshall ∧ n.path = m.path := by
    rw [hm]
    exact ⟨rfl, rfl, rfl⟩
  obtain ⟨hsame, hmarshall, hpath⟩ := hkept
  rw [hsame] at hdirection
  rw [hmarshall] at hfixed
  rw [Node.writeFault, hmarshall, hpath]
  exact ⟨m, hw, hdirection, hfixed, rfl⟩

/-- **The mode decides on access alone.** If a call can be built for forward evaluation, it can be
built for backward evaluation, with the same rank, the same variables in all but the access to them,
the same signature and the same trampoline. If it can be built for backward evaluation only, then
the other build fails because a root leaf cannot be written that has to be, its direction being out
or inout. If it cannot be built for backward evaluation, both builds fail with one error. -/
theorem build_mode (layout : Layout) (strict : Bool) (f : Function) (a : Arguments)
    (o : Vectorization) :
    match build ⟨layout, .builtin⟩ ⟨.forward, strict⟩ f a o,
      build ⟨layout, .builtin⟩ ⟨.backward, strict⟩ f a o with
    | .ok b, .ok b' =>
      b.gridRank = b'.gridRank ∧ b.call.SameButAccess b'.call ∧
        b.call.signature = b'.call.signature ∧
          ∃ m m', b.call.emit b.gridRank = .ok m ∧ b.code = m.text ∧
            b'.call.emit b'.gridRank = .ok m' ∧ b'.code = m'.text ∧ m.trampoline = m'.trampoline
    | .ok _, .error _ => False
    | .error e, .ok b' =>
      ∃ n, .leaf n ∈ b'.call.roots ∧ (n.direction = .output ∨ n.direction = .inputOutput) ∧
        n.marshall.isWritable = false ∧
          e = (Fault.notWritable n.path n.marshall.typeName).blame n.path
    | .error e, .error e' => e = e' := by
  cases hprepare : prepare ⟨layout, .builtin⟩ f a o with
  | error e => rw [build_of_prepare_error hprepare, build_of_prepare_error hprepare]
  | ok c =>
    cases halign : (c.align ⟨c.gridRank, strict⟩).toExcept with
    | error e => rw [build_of_align_error hprepare halign, build_of_align_error hprepare halign]
    | ok c₁ =>
      have htyped := (typed_of_prepare hprepare).align (Progress.result?_eq_some_iff.mpr halign)
      obtain ⟨c₂, hc₂, hfunction, hgranted, hstorable⟩ := htyped.differentiate .forward
      obtain ⟨c₃, hc₃, hfunction', hgranted', hstorable'⟩ := htyped.differentiate .backward
      have hsame := sameButAccess_of_differentiate hc₂ hc₃
      have hforward := build_of_differentiate hprepare halign hc₂
      have hbackward := build_of_differentiate hprepare halign hc₃
      -- backward evaluation blocks nothing, so that there is always code for it
      obtain ⟨m', hm'⟩ : ∃ m', c₃.emit c.gridRank = .ok m' := by
        rcases emit_of_storable hfunction' hstorable' c.gridRank with h | ⟨n, hn, hblocked, -⟩
        · exact h
        · exact absurd hblocked (hgranted' _ hn n (by simp)).not_blocked
      rw [hm'] at hbackward
      rcases emit_of_storable hfunction hstorable c.gridRank with ⟨m, hm⟩ | ⟨n, hn, hblocked, hfault⟩
      · rw [hm] at hforward
        have htrampoline := hsame.trampoline_of_emit (bound_of_build hforward)
          (bound_of_build hbackward) hm hm'
        rw [hforward, hbackward]
        exact ⟨rfl, hsame, hsame.signature_eq, m, m', hm, rfl, hm', rfl, htrampoline⟩
      · rw [hfault] at hforward
        obtain ⟨k, hk, hdirection, hfixed, hfault⟩ :=
          hsame.exists_fixed hn (hgranted _ hn n (by simp)) hblocked
        rw [hforward, hbackward]
        exact ⟨k, hk, hdirection, hfixed, hfault⟩

end Call

end KernelCall
