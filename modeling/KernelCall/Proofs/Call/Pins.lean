import KernelCall.Proofs.Call.Built
import KernelCall.Proofs.Call.Frame

/-!
# Where pins come from

The overrides of a call are trees beside its variables, and a leaf that is prepared carries a pin if
and only if the override for its place is one. In particular an entry of a dictionary reaches the
field of that name alone: what is said of the dictionary itself, under `$type`, pins none of its
fields.

Only overriding writes pins. What remains to be shown is that the pin which is recorded at a leaf is
the one for its place, and that the other passes keep both.
-/

namespace KernelCall

namespace Node

/-- The node has that pin, and its name. -/
def Designated (pin? : Option Pin) (n m : Node) : Prop := m.name = n.name ∧ m.pin? = pin?

/-- The node keeps its name and its pin. -/
def Kept (n m : Node) : Prop := m.name = n.name ∧ m.pin? = n.pin?

end Node

namespace Variable

theorem name_of_designate? {o? : Option Override} {v w : Variable}
    (h : v.designate? o? = some w) : w.name = v.name := by
  obtain ⟨pin?, hnode⟩ := (related_of_designate? h).node
  rw [name, hnode]

/-- Only a leaf is altered to a leaf. -/
theorem Altered.exists_leaf {L : Option Pin → Node → Node → Prop} {D : Node → Node → Prop}
    {o? : Option Override} {v : Variable} {m : Node} (h : Altered L D o? v (leaf m)) :
    ∃ n, v = leaf n ∧ L (o?.bind Override.pin?) n m := by
  cases v with
  | leaf n =>
    obtain ⟨_, heq, hn⟩ := altered_leaf_iff.mp h
    cases heq
    exact ⟨n, rfl, hn⟩
  | dict n fs =>
    obtain ⟨_, _, heq, -⟩ := altered_dict_iff.mp h
    cases heq

/-- **Every leaf is given the pin for its place.** -/
theorem altered_of_designate? {o? : Option Override} {v w : Variable}
    (hv : ∀ n ∈ v.nodes, n.pin? = none) (h : v.designate? o? = some w) :
    Altered Node.Designated (fun _ _ ↦ True) o? v w := by
  induction v generalizing o? w with
  | leaf n =>
    rcases o? with _ | (p | entries)
    · cases h
      exact altered_leaf ⟨rfl, hv n (by simp)⟩
    · cases h
      exact altered_leaf ⟨rfl, rfl⟩
    · cases h
  | dict n fs ih =>
    obtain ⟨m, gs, rfl, -, hfg⟩ := designate?_dict_eq_some h
    refine altered_dict trivial (forall₂_of_mem hfg fun f hf g _ hfg ↦ ?_)
    exact ⟨name_of_designate? hfg, ih f hf (fun k hk ↦ hv k (mem_nodes_of_field hf hk)) hfg⟩

end Variable

namespace Call

theorem rel_of_designatePositional? {vs ws : List Variable} {os : List Override}
    (hvs : ∀ v ∈ vs, ∀ n ∈ v.nodes, n.pin? = none) (h : designatePositional? vs os = some ws)
    (i : Nat) :
    Option.Rel (Variable.Altered Node.Designated (fun _ _ ↦ True) os[i]?) vs[i]? ws[i]? := by
  induction vs generalizing os ws i with
  | nil =>
    cases h
    exact .none
  | cons v vs ih =>
    rw [List.forall_mem_cons] at hvs
    obtain ⟨w, hw, h⟩ := Option.bind_eq_some_iff.mp h
    obtain ⟨ws, hws, rfl⟩ := Option.map_eq_some_iff.mp h
    cases i with
    | zero =>
      rw [List.head?_eq_getElem?] at hw
      exact .some (Variable.altered_of_designate? hvs.1 hw)
    | succ i =>
      rw [← List.getElem?_tail]
      exact ih hvs.2 hws i

theorem altered_of_designate? {o : Vectorization} {c c' : Call}
    (hc : ∀ v ∈ c.roots, ∀ n ∈ v.nodes, n.pin? = none) (h : c.designate? o = some c') :
    c.Altered Node.Designated (fun _ _ ↦ True) o c' := by
  obtain ⟨hargs, hkwargs, -⟩ := withVariables?_eq_some_iff.mp h
  have hpositional := fun v hv ↦ hc v (List.mem_append_left _ hv)
  have hkeyword := fun v hv ↦ hc v (List.mem_append_right _ hv)
  refine ⟨rel_of_designatePositional? hpositional hargs, ?_⟩
  refine forall₂_of_mem (mapM_eq_some_iff.mp hkwargs) fun v hv w _ hvw ↦ ?_
  exact ⟨Variable.name_of_designate? hvw, Variable.altered_of_designate? (hkeyword v hv) hvw⟩

theorem altered_of_related {R : Node → Node → Prop} {c c' : Call}
    (hargs : List.Forall₂ (Variable.Related R) c.args c'.args)
    (hkwargs : List.Forall₂ (Variable.Related R) c.kwargs c'.kwargs)
    (hname : ∀ n m, R n m → m.name = n.name) : c.Altered (fun _ ↦ R) R {} c' := by
  have hroot : ∀ v w, Variable.Related R v w → Variable.Altered (fun _ ↦ R) R none v w :=
    fun v w hvw ↦ Variable.altered_of_related hvw hname (fun _ _ ↦ id) fun _ _ ↦ id
  refine altered_of_forall₂ (hargs.imp hroot) (hkwargs.imp fun v w hvw ↦ ?_)
  exact ⟨hname v.node w.node hvw.node, hroot v w hvw⟩

theorem altered_of_resolved? {lookup : Lookup} {c c' : Call} (h : c.resolved? lookup = some c') :
    c.Altered (fun _ ↦ Node.Kept) Node.Kept {} c' := by
  obtain ⟨hargs, hkwargs, -⟩ := withVariables?_eq_some_iff.mp h
  have hkept : ∀ v w, Variable.walk? (Node.resolvedLeaf? lookup) (Node.resolvedContainer? lookup) v
      = some w → Variable.Related Node.Kept v w := by
    intro v w
    refine Variable.related_of_walk? (fun n m hm ↦ ?_) fun fs n m hm ↦ ?_
    · obtain ⟨_, _, _, -, rfl⟩ := Node.resolvedLeaf?_eq_some hm
      exact ⟨rfl, rfl⟩
    · obtain ⟨_, rfl⟩ := Node.resolvedContainer?_eq_some hm
      exact ⟨rfl, rfl⟩
  refine altered_of_related ?_ ?_ fun n m hnm ↦ hnm.1
  · exact (mapM_eq_some_iff.mp hargs).imp hkept
  · exact (mapM_eq_some_iff.mp hkwargs).imp hkept

/-- The leaves of a call are pinned as overrides say, place by place. -/
structure PinnedBy (o : Vectorization) (c : Call) : Prop where
  /-- Every leaf is at a place. -/
  placed : ∀ n ∈ c.leaves, ∃ x, c.at? x = some (.leaf n)
  /-- A leaf has the pin that the override for its place is, and none if there is no override. -/
  pinned : ∀ x n, c.at? x = some (.leaf n) → n.pin? = (o.at? x).bind Override.pin?

theorem pinnedBy_of_at? {o : Vectorization} {c : Call} (hc : c.Distinct)
    (h : ∀ x n, c.at? x = some (.leaf n) → n.pin? = (o.at? x).bind Override.pin?) :
    c.PinnedBy o := by
  refine ⟨fun n hn ↦ ?_, h⟩
  obtain ⟨v, hv, hnv⟩ := List.mem_flatMap.mp hn
  exact hc.exists_at? hv (Variable.mem_leaves_iff.mp hnv)

theorem pinnedBy_of_designated? {lookup : Lookup} {f : Function} {a : Arguments}
    {o : Vectorization} {c : Call} (h : designated? lookup f a o = some c) :
    c.Distinct ∧ c.PinnedBy o := by
  obtain ⟨c₀, c₁, hc₀, hc₁, -, hdesignated⟩ := designated?_eq_some_iff.mp h
  have hundecided := undecided_of_bind hc₀ hc₁
  have hpins : c₁.Altered Node.Designated (fun _ _ ↦ True) o c :=
    altered_of_designate? (fun v hv n hn ↦ (hundecided v hv n hn).2.2) hdesignated
  have hdistinct : c.Distinct := by
    have hbound := altered_bind f c₀
    rw [Progress.state_of_result? hc₁] at hbound
    exact hpins.distinct (hbound.distinct (distinct_of_ofArguments hc₀))
  refine ⟨hdistinct, pinnedBy_of_at? hdistinct fun x m hm ↦ ?_⟩
  have hx := hpins.at? x
  rw [hm] at hx
  obtain ⟨v, -, hvm⟩ := exists_of_rel_right hx
  obtain ⟨n, -, hnm⟩ := hvm.exists_leaf
  exact hnm.2

/-- **Pins come from overrides.** A call that is prepared is pinned by its overrides. -/
theorem pinnedBy_of_prepare {lookup : Lookup} {f : Function} {a : Arguments} {o : Vectorization}
    {c : Call} (h : prepare lookup f a o = .ok c) : c.PinnedBy o := by
  obtain ⟨c₀, hc₀, hresolved⟩ := prepare_eq_ok_iff.mp h
  obtain ⟨hdistinct, hpinned⟩ := pinnedBy_of_designated? hc₀
  have hkept := altered_of_resolved? hresolved
  refine pinnedBy_of_at? (hkept.distinct hdistinct) fun x m hm ↦ ?_
  have hx := hkept.at? x
  rw [hm] at hx
  obtain ⟨v, hv, hvm⟩ := exists_of_rel_right hx
  obtain ⟨n, rfl, hnm⟩ := hvm.exists_leaf
  exact hnm.2.trans (hpinned.pinned x n hv)

end Call

end KernelCall
