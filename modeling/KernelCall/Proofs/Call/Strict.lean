import KernelCall.Proofs.Call.Mode
import KernelCall.Proofs.Call.Pins

/-!
# Strict broadcasting

Strict broadcasting is a matter of one pass. A leaf that is not pinned is partial if it takes part in
some, but not all, dimensions of the dispatch, and where broadcasting is strict, aligning stops at
the first partial leaf. Leaves before it are aligned without error, since no leaf of a prepared call
has more dimensions than the dispatch; and if no leaf is partial, aligning does what it does where
broadcasting is not strict.
-/

namespace KernelCall

/-! ## Aligning a leaf -/

namespace Node

/-- Whether a leaf that is not pinned takes part in some dimensions of the dispatch and not in
others. -/
def isPartial (gridRank : Nat) (n : Node) : Bool :=
  n.pin?.isNone && n.dimensionality?.any fun d ↦ d != 0 && d != gridRank

/-- The error that stops a pass which aligns the leaf. -/
def alignError? (dispatch : Dispatch) (n : Node) : Option BindError :=
  (Progress.ofExcept n (n.align dispatch)).error?

theorem alignError?_of_isPartial {gridRank : Nat} {n : Node} (h : n.isPartial gridRank) :
    ∃ d, n.dimensionality? = some d ∧ n.alignError? ⟨gridRank, true⟩ =
      some ((Fault.partialRank n.path d gridRank).blame n.path) := by
  rw [isPartial] at h
  cases hd : n.dimensionality? with
  | none =>
    rw [hd, Option.any_none, Bool.and_false] at h
    cases h
  | some d =>
    rw [hd, Option.any_some, ← Bool.and_assoc] at h
    have hrefused : n.align ⟨gridRank, true⟩ =
        .error ((Fault.partialRank n.path d gridRank).blame n.path) := by
      rw [align, hd]
      exact if_pos h
    refine ⟨d, rfl, ?_⟩
    rw [alignError?, hrefused]
    rfl

theorem align_of_not_isPartial {gridRank : Nat} {n : Node} (h : ¬ n.isPartial gridRank) :
    n.align ⟨gridRank, true⟩ = n.align ⟨gridRank, false⟩ := by
  rw [align, align]
  cases hd : n.dimensionality? with
  | none => rfl
  | some d =>
    have hpartial : (n.pin?.isNone && d != 0 && d != gridRank) = false := by
      rw [isPartial, hd, Bool.not_eq_true] at h
      rwa [Bool.and_assoc]
    simp only [Bool.true_and, Bool.false_and, hpartial]

theorem alignError?_of_not_strict {gridRank d : Nat} {n : Node} (hd : n.dimensionality? = some d)
    (hle : d ≤ gridRank) : n.alignError? ⟨gridRank, false⟩ = none := by
  rw [alignError?, align_of_rank_le hd hle, Bool.false_and, Bool.false_and, Bool.false_and]
  rfl

end Node

/-! ## Aligning a call -/

namespace Variable

theorem error?_align (dispatch : Dispatch) (v : Variable) :
    (v.align dispatch).error? = v.leaves.findSome? (·.alignError? dispatch) := by
  induction v with
  | leaf n =>
    rw [leaves_leaf, List.findSome?_singleton]
    rfl
  | dict n fs ih =>
    rw [align, alignFields_eq_traverse, Progress.error?_map, Progress.error?_traverse, leaves_dict]
    exact findSome?_flatMap_eq ih

theorem align_congr {dispatch dispatch' : Dispatch} {v : Variable}
    (h : ∀ n ∈ v.leaves, n.align dispatch = n.align dispatch') :
    v.align dispatch = v.align dispatch' := by
  induction v with
  | leaf n =>
    have hleaf := h n (by simp)
    rw [align, align, hleaf]
  | dict n fs ih =>
    rw [align, align, alignFields_eq_traverse, alignFields_eq_traverse]
    have hfields := Progress.traverse_congr fun f hf ↦
      ih f hf fun m hm ↦ h m (mem_leaves_of_field hf hm)
    rw [hfields]

end Variable

namespace Call

/-- **Aligning stops at the first leaf** that cannot be aligned. -/
theorem error?_align (dispatch : Dispatch) (c : Call) :
    (c.align dispatch).error? = c.leaves.findSome? (·.alignError? dispatch) := by
  have hroots := findSome?_flatMap_eq fun v (_ : v ∈ c.roots) ↦ Variable.error?_align dispatch v
  rw [align, traverse, Progress.error?_andThen, Progress.error?_map, Progress.error?_traverse,
    Progress.error?_traverse, ← List.findSome?_append]
  exact hroots

theorem align_congr {dispatch dispatch' : Dispatch} {c : Call}
    (h : ∀ n ∈ c.leaves, n.align dispatch = n.align dispatch') :
    c.align dispatch = c.align dispatch' := by
  have hroot : ∀ v ∈ c.roots, v.align dispatch = v.align dispatch' := fun v hv ↦
    Variable.align_congr fun n hn ↦ h n (List.mem_flatMap.mpr ⟨v, hv, hn⟩)
  have hargs := Progress.traverse_congr fun v hv ↦ hroot v (List.mem_append_left _ hv)
  have hkwargs := Progress.traverse_congr fun v hv ↦ hroot v (List.mem_append_right _ hv)
  rw [align, align, traverse, traverse, hargs, hkwargs]

/-- Every leaf has a dimensionality, and none exceeds the rank of the dispatch. -/
theorem exists_rank_of_prepare {lookup : Lookup} {f : Function} {a : Arguments} {o : Vectorization}
    {c : Call} (h : prepare lookup f a o = .ok c) {n : Node} (hn : n ∈ c.leaves) :
    ∃ d, n.dimensionality? = some d ∧ d ≤ c.gridRank := by
  obtain ⟨c₀, -, hresolved⟩ := prepare_eq_ok_iff.mp h
  obtain ⟨m, -, hmn⟩ := exists_of_forall₂_right (leaves_of_resolved? hresolved) hn
  obtain ⟨_, _, d, -, rfl⟩ := Node.resolvedLeaf?_eq_some hmn
  exact ⟨d, rfl, rank_le_gridRank (ranked_of_resolved? hresolved) hn rfl⟩

/-- The first partial leaf is the first one that cannot be aligned. -/
theorem error?_align_of_find? {c : Call} {gridRank : Nat} {n : Node}
    (hranks : ∀ m ∈ c.leaves, ∃ d, m.dimensionality? = some d ∧ d ≤ gridRank)
    (hn : c.leaves.find? (·.isPartial gridRank) = some n) :
    (c.align ⟨gridRank, true⟩).error? = n.alignError? ⟨gridRank, true⟩ := by
  obtain ⟨hpartial, before, after, hleaves, hbefore⟩ := List.find?_eq_some_iff_append.mp hn
  -- a leaf before it is aligned as if broadcasting were not strict, and there is room for it
  have hnone : before.findSome? (·.alignError? ⟨gridRank, true⟩) = none := by
    refine List.findSome?_eq_none_iff.mpr fun m hm ↦ ?_
    have hwhole : ¬ m.isPartial gridRank := by simpa using hbefore m hm
    have hmem : m ∈ c.leaves := by
      rw [hleaves]
      exact List.mem_append_left _ hm
    obtain ⟨d, hd, hle⟩ := hranks m hmem
    rw [Node.alignError?, Node.align_of_not_isPartial hwhole]
    exact Node.alignError?_of_not_strict hd hle
  obtain ⟨d, -, herror⟩ := Node.alignError?_of_isPartial hpartial
  rw [error?_align, hleaves, List.findSome?_append, hnone, Option.none_or, List.findSome?_cons,
    herror]

/-! ## Two builds -/

/-- **Strict broadcasting adds one error.** If the call cannot be prepared, the build fails with the
same error whether broadcasting is strict or not. Otherwise leaves are pinned place by place as
overrides say, and of the leaves that are not pinned the first one to take part in some, but not all,
dimensions of the dispatch makes the strict build fail; if there is none, the two builds are one. -/
theorem build_strict (lookup : Lookup) (mode : CallMode) (f : Function) (a : Arguments)
    (o : Vectorization) :
    match prepare lookup f a o with
    | .error e => ∀ strict, build lookup ⟨mode, strict⟩ f a o = .error e
    | .ok c => c.PinnedBy o ∧
      match c.leaves.find? (·.isPartial c.gridRank) with
      | some n => ∃ d, n.dimensionality? = some d ∧ build lookup ⟨mode, true⟩ f a o =
          .error ((Fault.partialRank n.path d c.gridRank).blame n.path)
      | none => build lookup ⟨mode, true⟩ f a o = build lookup ⟨mode, false⟩ f a o := by
  cases h : prepare lookup f a o with
  | error e => exact fun strict ↦ build_of_prepare_error h ⟨mode, strict⟩
  | ok c =>
    refine ⟨pinnedBy_of_prepare h, ?_⟩
    have hranks := fun n (hn : n ∈ c.leaves) ↦ exists_rank_of_prepare h hn
    cases hn : c.leaves.find? (·.isPartial c.gridRank) with
    | some n =>
      obtain ⟨d, hd, herror⟩ := Node.alignError?_of_isPartial (List.find?_some hn)
      have hstopped : (c.align ⟨c.gridRank, true⟩).toExcept =
          .error ((Fault.partialRank n.path d c.gridRank).blame n.path) := by
        rw [Progress.toExcept, error?_align_of_find? hranks hn, herror]
      exact ⟨d, hd, build_of_align_error h hstopped⟩
    | none =>
      have hwhole := List.find?_eq_none.mp hn
      have halign : c.align ⟨c.gridRank, true⟩ = c.align ⟨c.gridRank, false⟩ :=
        align_congr fun n hn ↦ Node.align_of_not_isPartial (hwhole n hn)
      rw [build, build, h]
      change ((c.align ⟨c.gridRank, true⟩).toExcept >>= _) =
        ((c.align ⟨c.gridRank, false⟩).toExcept >>= _)
      rw [halign]

end Call

end KernelCall
