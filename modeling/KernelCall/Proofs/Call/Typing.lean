import KernelCall.Proofs.Call.Dimensions

/-!
# The types of leaves that are not pinned

A leaf that its caller leaves alone is received as the type that its marshall resolves for the type
it is bound to, so the marshall has accepted that type. The one exception is the slot of the
returned value: nothing flows in from it, and it has the type that the function returns, whether or
not its marshall would have resolved that type. What its marshall is asked for is the dimensions.

The passes tell the slot of the returned value by its path. A part of a dictionary is reached by a
path with a dot, which `_result` does not have, so the exception is for roots alone.
-/

namespace KernelCall

namespace Variable

/-- Any part below a bound variable is reached by a path with a dot. -/
theorem BoundTo.eq_or_dot_mem {u v : Variable} (hu : u ∈ v.parts) {path : String}
    {target : Target} (h : v.BoundTo path target) : u = v ∨ '.' ∈ u.path.toList := by
  induction v generalizing path target with
  | leaf n => exact Or.inl (mem_parts_leaf.mp hu)
  | dict n fs ih =>
    rcases mem_parts_dict.mp hu with rfl | ⟨f, hf, huf⟩
    · exact Or.inl rfl
    · obtain ⟨type, -, hbound⟩ := (boundTo_dict_iff.mp h).2 f hf
      apply Or.inr
      rcases ih f hf huf hbound with rfl | hdot
      · rw [hbound.node.1, subpath]
        simp
      · exact hdot

/-- The slot of a returned value. A dictionary is returned field by field. -/
def IsResultSlot (v : Variable) : Prop := v.isLeaf ∧ v.name = resultKeyword

instance (v : Variable) : Decidable v.IsResultSlot :=
  inferInstanceAs (Decidable (v.isLeaf ∧ v.name = resultKeyword))

/-- Among the leaves of a root, only the root itself can have the path of the returned value. -/
theorem Seated.path_eq_resultKeyword_iff {name : String} {target : Target} {index? : Option Nat}
    {v : Variable} (h : v.Seated name target index?) {n : Node} (hn : leaf n ∈ v.parts) :
    n.path = resultKeyword ↔ v.IsResultSlot := by
  obtain ⟨hname, -, hbound⟩ := h
  have hpath : v.path = v.name := by rw [hname, hbound.node.1]
  constructor
  · intro hresult
    rcases hbound.eq_or_dot_mem hn with rfl | hdot
    · exact ⟨rfl, hpath ▸ hresult⟩
    · rw [show (leaf n).path = n.path from rfl, hresult] at hdot
      exact absurd hdot (by decide)
  · rintro ⟨hleaf, hresult⟩
    cases v with
    | dict m fs => cases hleaf
    | leaf m =>
      cases mem_parts_leaf.mp hn
      exact hpath.trans hresult

end Variable

namespace Node

/-- A leaf that is bound to one type is received as another, and its marshall leaves its dimensions
to the dispatch accordingly. -/
structure ReceivedAs (bound t : KernelType) (n : Node) : Prop where
  bound : n.boundType = .ok bound
  type : n.vectorType? = some t
  rank : ∃ d, n.marshall.dimensionality t = .ok d ∧ n.dimensionality? = some d

/-- A settled leaf without a pin has the type that its marshall resolves, or, at the path of the
returned value, the type it is bound to. -/
theorem receivedAs_of_settledLeaf? {lookup : Lookup} {settings : Settings} {gridRank : Nat}
    {n : Node} (hpin : n.pin? = none)
    (h : n.settledLeaf? lookup settings gridRank = some n) :
    ∃ bound t, n.ReceivedAs bound t ∧ (n.path = resultKeyword → t = bound) ∧
      (n.path ≠ resultKeyword → n.marshall.resolve bound = .ok t) := by
  obtain ⟨t, rank, htype, hrank, -, hn⟩ := settledLeaf?_eq_some_iff.mp h
  have hvector : n.vectorType? = some t := by rw [hn]; rfl
  have hdimensionality : n.dimensionality? = some rank := by rw [hn]
  rw [settledRank?, htype, Option.bind_some, hpin] at hrank
  rw [settledType?, hpin] at htype
  obtain ⟨target, htarget, htype⟩ := Option.bind_eq_some_iff.mp htype
  have hbound : n.boundType = .ok target.type := by rw [boundType, htarget]
  refine ⟨target.type, t, ⟨hbound, hvector, rank, toOption_eq_some_iff.mp hrank, hdimensionality⟩,
    fun hresult ↦ ?_, fun hresult ↦ ?_⟩
  · rw [if_pos hresult] at htype
    exact (Option.some.inj htype).symm
  · rw [if_neg hresult] at htype
    exact toOption_eq_some_iff.mp htype

end Node

namespace Call

variable {lookup : Lookup} {settings : Settings} {f : Function} {a : Arguments} {o : Vectorization}
  {b : BuiltCall}

/-- The keyword of the returned value is bound to the type the function returns. -/
theorem Bound.returnType {c : Call} (h : c.Bound f) {v : Variable} (hv : v ∈ c.kwargs)
    (hname : v.name = resultKeyword) {bound : KernelType} (hbound : v.node.boundType = .ok bound) :
    f.returnType = some bound := by
  obtain ⟨target, index?, hseat, hseated⟩ := h.keyword v hv
  have hreceiver : ¬ (resultKeyword == receiverKeyword) = true := by decide
  rw [hname, Function.seat?, if_neg hreceiver, if_pos (beq_self_eq_true _)] at hseat
  obtain ⟨type, htype, hseat⟩ := Option.map_eq_some_iff.mp hseat
  cases hseat
  rw [Node.boundType, hseated.2.2.node.2] at hbound
  cases hbound
  exact htype

/-- **Types that nobody pins are resolved.** In a built call every leaf without a pin, at any depth,
is received as the very type that its marshall resolves for the type it is bound to, unless it is the
slot of the returned value. That slot is received as the type it is bound to, which for the keyword
is the type the function returns. Of all of them the marshall knows how many dimensions are left. -/
theorem receivedAs_of_build (h : build lookup settings f a o = .ok b) {v : Variable}
    (hv : v ∈ b.call.roots) {n : Node} (hn : .leaf n ∈ v.parts) (hpin : n.pin? = none) :
    ∃ bound t, n.ReceivedAs bound t ∧ (¬ v.IsResultSlot → n.marshall.resolve bound = .ok t) ∧
      (v.IsResultSlot → t = bound ∧ (v ∈ b.call.kwargs → f.returnType = some t)) := by
  have hbound := bound_of_build h
  obtain ⟨name, target, index?, hseated⟩ := hbound.exists_seated hv
  have hpath := hseated.path_eq_resultKeyword_iff hn
  obtain ⟨bound, t, hreceived, hresult, hresolve⟩ :=
    Node.receivedAs_of_settledLeaf? hpin ((settled_of_build h).leaf v hv n hn)
  refine ⟨bound, t, hreceived, fun hslot ↦ hresolve (mt hpath.mp hslot), fun hslot ↦ ?_⟩
  have ht := hresult (hpath.mpr hslot)
  refine ⟨ht, fun hkwarg ↦ ?_⟩
  rw [ht]
  obtain ⟨hleaf, hname⟩ := hslot
  cases v with
  | dict m fs => cases hleaf
  | leaf m =>
    cases Variable.mem_parts_leaf.mp hn
    exact hbound.returnType hkwarg hname hreceived.bound

/-- Points and a picture are resolved for their parameters, and numbers are returned to a grid. -/
theorem receivedAs_sampledGrid :
    ∃ b, build ⟨.standard, .builtin⟩ {} sample sampledGrid {} = .ok b ∧
      (∃ v ∈ b.call.roots, v.IsResultSlot) ∧
      ∀ v ∈ b.call.roots, ∀ n, .leaf n ∈ v.parts →
        ∃ bound t, n.ReceivedAs bound t ∧ (¬ v.IsResultSlot → n.marshall.resolve bound = .ok t) ∧
          (v.IsResultSlot → t = bound ∧ (v ∈ b.call.kwargs → sample.returnType = some t)) := by
  have hbuilds : ∃ b ∈ (build ⟨.standard, .builtin⟩ {} sample sampledGrid {}).toOption,
      (∃ v ∈ b.call.roots, v.IsResultSlot) ∧
        ∀ v ∈ b.call.roots, ∀ n ∈ v.leaves, n.pin? = none := by decide +kernel
  obtain ⟨b, hb, hslot, hpins⟩ := hbuilds
  have h := toOption_eq_some_iff.mp hb
  refine ⟨b, h, hslot, fun v hv n hn ↦ ?_⟩
  exact receivedAs_of_build h hv hn (hpins v hv n (Variable.mem_leaves_iff.mpr hn))

/-- A function that returns a point. -/
def origin : Function where
  name := "origin"
  params := []
  returnType := some (.struct "Point" [("x", .scalar .float), ("y", .scalar .float)] false)

/-- **A point is returned to a number.** The marshall of a reference to a number does not take a
point, and the call is built all the same. -/
theorem exists_unresolved_result :
    ∃ b ∈ (build ⟨.standard, .builtin⟩ {} origin
        { kwargs := [("_result", .valueRef (.int 0))] } {}).toOption,
      ∃ n ∈ b.call.leaves, n.pin? = none ∧ ∃ bound ∈ n.boundType.toOption,
        (n.marshall.resolve bound).toOption = none := by
  decide +kernel

end Call

end KernelCall
