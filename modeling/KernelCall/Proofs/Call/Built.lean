import KernelCall.Proofs.Call.Emitted
import KernelCall.Proofs.Call.Outcome

/-!
# Built calls

What holds of every call that a build leaves: its variables are still in their seats, the fields of a
dictionary are bound with the dictionary's modifiers, each node's access follows from its type and
its marshall, and code could be generated for every part.
-/

namespace KernelCall

/-! ## Seats -/

namespace Node

/-- The nodes carry the same value to the same place. -/
structure SameSeat (n m : Node) : Prop where
  name : m.name = n.name
  path : m.path = n.path
  marshall : m.marshall = n.marshall
  target : m.target? = n.target?
  index : m.paramIndex? = n.paramIndex?

theorem Repinned.sameSeat {n m : Node} (h : n.Repinned m) : n.SameSeat m := by
  obtain ⟨pin?, rfl⟩ := h
  exact ⟨rfl, rfl, rfl, rfl, rfl⟩

theorem settledLeaf?_eq_some_iff {lookup : Lookup} {settings : Settings} {gridRank : Nat}
    {n m : Node} : n.settledLeaf? lookup settings gridRank = some m ↔
      ∃ t rank, n.settledType? lookup = some t ∧ n.settledRank? lookup = some rank ∧
        ¬ (settings.strict ∧ n.pin? = none ∧ rank ≠ 0 ∧ rank ≠ gridRank) ∧
          m = { n.granted settings.mode t with
            mapping := n.settledMapping rank gridRank, dimensionality? := some rank } := by
  rw [settledLeaf?, Option.bind_eq_some_iff]
  refine exists_congr fun t ↦ ?_
  rw [Option.bind_eq_some_iff]
  constructor
  · rintro ⟨ht, rank, hrank, h⟩
    split at h
    · cases h
    · next hstrict =>
      cases h
      exact ⟨rank, ht, hrank, hstrict, rfl⟩
  · rintro ⟨rank, ht, hrank, hstrict, rfl⟩
    exact ⟨ht, rank, hrank, if_neg hstrict⟩

theorem settledContainer?_eq_some_iff {lookup : Lookup} {mode : CallMode} {fields : List Variable}
    {n m : Node} : n.settledContainer? lookup mode fields = some m ↔
      ∃ t, n.settledContainerType? lookup = some t ∧
        m = { n.granted mode t with
          dimensionality? := some (greatest (fields.filterMap (·.node.dimensionality?))) } := by
  rw [settledContainer?, Option.map_eq_some_iff]
  exact exists_congr fun t ↦ and_congr_right fun _ ↦ eq_comm

/-- The node has a vector type, and the derivatives and the access that follow from it. -/
structure Granted (mode : CallMode) (n : Node) : Prop where
  differentiable : ∃ t, n.vectorType? = some t ∧
    n.differentiable = (!n.noDiff && t.differentiable && n.marshall.hasDerivative)
  access : n.access = mode.access n.differentiable n.direction

theorem settled_of_leaf {lookup : Lookup} {settings : Settings} {gridRank : Nat} {n m : Node}
    (h : n.settledLeaf? lookup settings gridRank = some m) :
    n.SameSeat m ∧ m.Granted settings.mode ∧ m.pin? = n.pin? := by
  obtain ⟨t, rank, -, -, -, rfl⟩ := settledLeaf?_eq_some_iff.mp h
  exact ⟨⟨rfl, rfl, rfl, rfl, rfl⟩, ⟨⟨t, rfl, rfl⟩, rfl⟩, rfl⟩

theorem settled_of_container {lookup : Lookup} {mode : CallMode} {fields : List Variable}
    {n m : Node} (h : n.settledContainer? lookup mode fields = some m) :
    n.SameSeat m ∧ m.Granted mode ∧ m.pin? = n.pin? := by
  obtain ⟨t, -, rfl⟩ := settledContainer?_eq_some_iff.mp h
  exact ⟨⟨rfl, rfl, rfl, rfl, rfl⟩, ⟨⟨t, rfl, rfl⟩, rfl⟩, rfl⟩

/-! What a node becomes depends on what settling does not change, so that it stays what it is. -/

theorem settledRank?_of_settledLeaf? {lookup : Lookup} {settings : Settings} {gridRank : Nat}
    {n m : Node} (h : n.settledLeaf? lookup settings gridRank = some m) :
    m.settledRank? lookup = n.settledRank? lookup := by
  obtain ⟨t, rank, -, -, -, rfl⟩ := settledLeaf?_eq_some_iff.mp h
  rfl

theorem settledLeaf?_of_settledLeaf? {lookup : Lookup} {settings : Settings} {gridRank : Nat}
    {n m : Node} (h : n.settledLeaf? lookup settings gridRank = some m) :
    m.settledLeaf? lookup settings gridRank = some m := by
  obtain ⟨t, rank, ht, hrank, hstrict, rfl⟩ := settledLeaf?_eq_some_iff.mp h
  exact settledLeaf?_eq_some_iff.mpr ⟨t, rank, ht, hrank, hstrict, rfl⟩

theorem settledContainer?_of_settledContainer? {lookup : Lookup} {mode : CallMode}
    {fields : List Variable} {n m : Node} (h : n.settledContainer? lookup mode fields = some m) :
    m.settledContainer? lookup mode fields = some m := by
  obtain ⟨t, ht, rfl⟩ := settledContainer?_eq_some_iff.mp h
  exact settledContainer?_eq_some_iff.mpr ⟨t, ht, rfl⟩

end Node

namespace Variable

/-- A variable stays bound while its nodes stay in their seats. -/
theorem BoundTo.of_related {v w : Variable} (hvw : Related Node.SameSeat v w) {path : String}
    {target : Target} (h : v.BoundTo path target) : w.BoundTo path target := by
  induction v generalizing w path target with
  | leaf n =>
    obtain ⟨m, rfl, hm⟩ := related_leaf_iff.mp hvw
    exact ⟨hm.path.trans h.1, hm.target.trans h.2⟩
  | dict n fs ih =>
    obtain ⟨m, gs, rfl, hm, hfg⟩ := related_dict_iff.mp hvw
    rw [boundTo_dict_iff] at h ⊢
    refine ⟨⟨hm.path.trans h.1.1, hm.target.trans h.1.2⟩, fun g hg ↦ ?_⟩
    obtain ⟨f, hf, hfg⟩ := exists_of_forall₂_right hfg hg
    obtain ⟨type, htype, hbound⟩ := h.2 f hf
    rw [show g.name = f.name from hfg.node.name]
    exact ⟨type, htype, ih f hf hfg hbound⟩

theorem Seated.of_related {v w : Variable} (hvw : Related Node.SameSeat v w) {name : String}
    {target : Target} {index? : Option Nat} (h : v.Seated name target index?) :
    w.Seated name target index? :=
  ⟨hvw.node.name.trans h.1, hvw.node.index.trans h.2.1, h.2.2.of_related hvw⟩

theorem BoundTo.part {u v : Variable} (hu : u ∈ v.parts) {path : String} {target : Target}
    (h : v.BoundTo path target) : ∃ path target, u.BoundTo path target := by
  induction v generalizing path target with
  | leaf n =>
    rw [mem_parts_leaf.mp hu]
    exact ⟨path, target, h⟩
  | dict n fs ih =>
    rcases mem_parts_dict.mp hu with rfl | ⟨f, hf, huf⟩
    · exact ⟨path, target, h⟩
    · obtain ⟨type, -, hbound⟩ := (boundTo_dict_iff.mp h).2 f hf
      exact ih f hf huf hbound

/-- **Fields inherit modifiers.** -/
theorem BoundTo.modifiers {n : Node} {fs : List Variable} {path : String} {target : Target}
    (h : (dict n fs).BoundTo path target) {f : Variable} (hf : f ∈ fs) :
    f.node.direction = n.direction ∧ f.node.noDiff = n.noDiff := by
  obtain ⟨⟨-, hn⟩, hfields⟩ := boundTo_dict_iff.mp h
  obtain ⟨type, -, hbound⟩ := hfields f hf
  rw [Node.direction, Node.direction, Node.noDiff, Node.noDiff, hn, hbound.node.2]
  exact ⟨rfl, rfl⟩

end Variable

namespace Call

theorem Bound.of_related {f : Function} {c c' : Call} (hfunction : c'.function? = c.function?)
    (hargs : List.Forall₂ (Variable.Related Node.SameSeat) c.args c'.args)
    (hkwargs : List.Forall₂ (Variable.Related Node.SameSeat) c.kwargs c'.kwargs)
    (h : c.Bound f) : c'.Bound f where
  function := hfunction.trans h.function
  arity := by
    rw [← h.arity]
    refine checkArity_congr hargs.length_eq.symm ?_
    have hnames : List.Forall₂ (· = ·) (c.kwargs.map (·.name)) (c'.kwargs.map (·.name)) := by
      rw [List.forall₂_map_left_iff, List.forall₂_map_right_iff]
      exact hkwargs.imp fun v w hvw ↦ hvw.node.name.symm
    rw [List.forall₂_eq_eq_eq] at hnames
    exact hnames.symm
  positional i w hw := by
    obtain ⟨hlt, rfl⟩ := List.getElem?_eq_some_iff.mp hw
    have hlt' : i < c.args.length := hargs.length_eq ▸ hlt
    obtain ⟨p, hp, hseat⟩ := h.positional i _ (List.getElem?_eq_getElem hlt')
    exact ⟨p, hp, hseat.of_related (List.forall₂_iff_get.mp hargs |>.2 i hlt' hlt)⟩
  keyword w hw := by
    obtain ⟨v, hv, hvw⟩ := exists_of_forall₂_right hkwargs hw
    obtain ⟨target, index?, hseat, hbound⟩ := h.keyword v hv
    rw [show w.name = v.name from hvw.node.name]
    exact ⟨target, index?, hseat, hbound.of_related hvw⟩

theorem designated?_eq_some_iff {lookup : Lookup} {f : Function} {a : Arguments}
    {o : Vectorization} {c : Call} : designated? lookup f a o = some c ↔
      ∃ c₀ c₁, ofArguments lookup.registry a = .ok c₀ ∧ (c₀.bind f).result? = some c₁ ∧
        o.Matches c₁ ∧ c₁.designate? o = some c := by
  rw [designated?, Option.bind_eq_some_iff]
  constructor
  · rintro ⟨c₀, hc₀, h⟩
    obtain ⟨c₁, hc₁, h⟩ := Option.bind_eq_some_iff.mp h
    split at h
    · next hmatches => exact ⟨c₀, c₁, toOption_eq_some_iff.mp hc₀, hc₁, hmatches, h⟩
    · cases h
  · rintro ⟨c₀, c₁, hc₀, hc₁, hmatches, h⟩
    refine ⟨c₀, toOption_eq_some_iff.mpr hc₀, Option.bind_eq_some_iff.mpr ⟨c₁, hc₁, ?_⟩⟩
    rw [if_pos hmatches, h]

theorem bound_of_designated? {lookup : Lookup} {f : Function} {a : Arguments} {o : Vectorization}
    {c : Call} (h : designated? lookup f a o = some c) : c.Bound f := by
  obtain ⟨c₀, c₁, hc₀, hc₁, -, hc⟩ := designated?_eq_some_iff.mp h
  obtain ⟨hargs, hkwargs, hfunction⟩ := related_of_designate? hc
  obtain ⟨hbound, -, -⟩ := bound_of_bind (name_of_mem_args hc₀) hc₁
  refine hbound.of_related hfunction ?_ ?_
  · exact hargs.imp fun _ _ hvw ↦ hvw.imp fun _ _ ↦ Node.Repinned.sameSeat
  · exact hkwargs.imp fun _ _ hvw ↦ hvw.imp fun _ _ ↦ Node.Repinned.sameSeat

/-- A settled variable has the shape of the one it stems from, node by node in the same seat. -/
theorem related_of_settled? {lookup : Lookup} {settings : Settings} {gridRank : Nat}
    {v w : Variable} (h : v.settled? lookup settings gridRank = some w) :
    Variable.Related (fun n m ↦ n.SameSeat m ∧ m.Granted settings.mode ∧ m.pin? = n.pin?) v w := by
  refine Variable.related_of_walk? (fun n m hm ↦ ?_) (fun fs n m hm ↦ ?_) h
  · exact Node.settled_of_leaf hm
  · exact Node.settled_of_container hm

theorem bound_of_settled? {lookup : Lookup} {settings : Settings} {gridRank : Nat} {f : Function}
    {c c' : Call} (h : c.mapM? (Variable.settled? lookup settings gridRank) = some c')
    (hc : c.Bound f) : c'.Bound f := by
  obtain ⟨hargs, hkwargs, hfunction⟩ := withVariables?_eq_some_iff.mp h
  refine hc.of_related hfunction ?_ ?_
  · exact (mapM_eq_some_iff.mp hargs).imp fun _ _ hvw ↦
      (related_of_settled? hvw).imp fun _ _ hnm ↦ hnm.1
  · exact (mapM_eq_some_iff.mp hkwargs).imp fun _ _ hvw ↦
      (related_of_settled? hvw).imp fun _ _ hnm ↦ hnm.1

/-- **A built call is bound** to the function it was built for. -/
theorem bound_of_build {lookup : Lookup} {settings : Settings} {f : Function} {a : Arguments}
    {o : Vectorization} {b : BuiltCall} (h : build lookup settings f a o = .ok b) :
    b.call.Bound f := by
  obtain ⟨c, hc, -, hsettled, -⟩ := build_eq_ok_iff.mp h
  exact bound_of_settled? hsettled (bound_of_designated? hc)

theorem Bound.exists_seated {f : Function} {c : Call} (h : c.Bound f) {v : Variable}
    (hv : v ∈ c.roots) : ∃ name target index?, v.Seated name target index? := by
  rcases List.mem_append.mp hv with hv | hv
  · obtain ⟨i, hi⟩ := List.mem_iff_getElem?.mp hv
    obtain ⟨p, -, hseat⟩ := h.positional i v hi
    exact ⟨_, _, _, hseat⟩
  · obtain ⟨target, index?, -, hseat⟩ := h.keyword v hv
    exact ⟨_, _, _, hseat⟩

theorem Bound.boundTo {f : Function} {c : Call} (h : c.Bound f) {v : Variable} (hv : v ∈ c.roots) :
    ∃ path target, v.BoundTo path target := by
  obtain ⟨name, target, index?, hseat⟩ := h.exists_seated hv
  exact ⟨name, target, hseat.2.2⟩

/-- The access of every node of a built call follows from its type and its marshall. -/
theorem granted_of_build {lookup : Lookup} {settings : Settings} {f : Function} {a : Arguments}
    {o : Vectorization} {b : BuiltCall} (h : build lookup settings f a o = .ok b) :
    ∀ v ∈ b.call.roots, ∀ n ∈ v.nodes, n.Granted settings.mode := by
  obtain ⟨c, -, -, hsettled, -⟩ := build_eq_ok_iff.mp h
  intro w hw
  obtain ⟨v, -, hvw⟩ := exists_of_mem_mapM (roots_of_mapM? hsettled) hw
  exact (related_of_settled? hvw).forall_nodes (fun _ _ hnm _ ↦ hnm.2.1) fun _ _ ↦ trivial

/-- Every node of a built call carries a value that the registry knows. -/
theorem carried_of_build {lookup : Lookup} {settings : Settings} {f : Function} {a : Arguments}
    {o : Vectorization} {b : BuiltCall} (h : build lookup settings f a o = .ok b) :
    ∀ v ∈ b.call.roots, ∀ n ∈ v.nodes, ∃ x, lookup.registry.forValue x = .ok n.marshall := by
  obtain ⟨c, hc, -, hsettled, -⟩ := build_eq_ok_iff.mp h
  obtain ⟨c₀, c₁, hc₀, hc₁, -, hdesignated⟩ := designated?_eq_some_iff.mp hc
  obtain ⟨hargs, hkwargs, -⟩ := related_of_designate? hdesignated
  obtain ⟨-, hbound, -⟩ := bound_of_bind (name_of_mem_args hc₀) hc₁
  have hroots := (mapM_eq_some_iff.mp (roots_of_mapM? hsettled)).imp fun _ _ ↦ related_of_settled?
  refine Variable.forall_nodes_of_related hroots (fun n m hnm hn ↦ hnm.1.marshall ▸ hn) ?_
  refine Variable.forall_nodes_of_related (List.rel_append hargs hkwargs)
    (fun n m hnm hn ↦ hnm.sameSeat.marshall ▸ hn) ?_
  refine Variable.forall_nodes_of_related hbound ?_ (fresh_of_ofArguments hc₀)
  rintro n m ⟨_, _, _, _, rfl⟩ ⟨name, path, marshall, x, hx, rfl⟩
  exact ⟨x, hx⟩

/-! ## Settled calls -/

/-- **A settled call.** Its leaves have the rank of the dispatch, and settling any of its nodes in
this dispatch once more changes nothing. Dictionaries have no mapping. -/
structure Settled (lookup : Lookup) (settings : Settings) (gridRank : Nat) (c : Call) : Prop where
  rank : c.settledRank? lookup = some gridRank
  leaf : ∀ v ∈ c.roots, ∀ n, .leaf n ∈ v.parts → n.settledLeaf? lookup settings gridRank = some n
  container : ∀ v ∈ c.roots, ∀ n fs, .dict n fs ∈ v.parts →
    n.settledContainer? lookup settings.mode fs = some n ∧ n.mapping = .unresolved

theorem ready_of_designated? {lookup : Lookup} {f : Function} {a : Arguments} {o : Vectorization}
    {c : Call} (h : designated? lookup f a o = some c) : c.Ready := by
  obtain ⟨c₀, c₁, hc₀, hc₁, -, hc⟩ := designated?_eq_some_iff.mp h
  exact ready_of_designate? (undecided_of_bind hc₀ hc₁) hc

theorem settled_of_build {lookup : Lookup} {settings : Settings} {f : Function} {a : Arguments}
    {o : Vectorization} {b : BuiltCall} (h : build lookup settings f a o = .ok b) :
    b.call.Settled lookup settings b.gridRank := by
  obtain ⟨c, hc, hrank, hsettled, -⟩ := build_eq_ok_iff.mp h
  have hroots := mapM_eq_some_iff.mp (roots_of_mapM? hsettled)
  refine ⟨?_, fun w hw m hm ↦ ?_, fun w hw m gs hm ↦ ?_⟩
  · have hleaves : List.Forall₂ (fun n m ↦ n.settledRank? lookup = m.settledRank? lookup)
        c.leaves b.call.leaves := by
      refine List.rel_flatMap hroots fun v w hvw ↦ ?_
      exact (mapM_eq_some_iff.mp (Variable.leaves_of_walk? hvw)).imp fun n m hnm ↦
        (Node.settledRank?_of_settledLeaf? hnm).symm
    rw [settledRank?, ← mapM_eq_of_forall₂ hleaves]
    exact hrank
  · obtain ⟨v, -, hvw⟩ := exists_of_forall₂_right hroots hw
    obtain ⟨n, -, hnm⟩ := Variable.leaf_of_walk? hvw hm
    exact Node.settledLeaf?_of_settledLeaf? hnm
  · obtain ⟨v, hv, hvw⟩ := exists_of_forall₂_right hroots hw
    obtain ⟨n, fs, hn, -, hnm⟩ := Variable.dict_of_walk? hvw hm
    refine ⟨Node.settledContainer?_of_settledContainer? hnm, ?_⟩
    obtain ⟨t, -, rfl⟩ := Node.settledContainer?_eq_some_iff.mp hnm
    exact ((ready_of_designated? hc v hv).1 n (Variable.node_mem_nodes hn)).1

end Call

/-! ## Generated code -/

theorem Call.typeCommands_of_build {lookup : Lookup} {settings : Settings} {f : Function}
    {a : Arguments} {o : Vectorization} {b : BuiltCall}
    (h : build lookup settings f a o = .ok b) {v u : Variable} (hv : v ∈ b.call.roots)
    (hu : u ∈ v.parts) : ∃ isRoot own, u.typeCommands b.gridRank isRoot = .ok own := by
  obtain ⟨c, -, -, -, m, hm, -⟩ := build_eq_ok_iff.mp h
  obtain ⟨own, hown⟩ := typeCommands_of_emit hm v hv
  exact Variable.typeCommands_of_part hown hu

end KernelCall
