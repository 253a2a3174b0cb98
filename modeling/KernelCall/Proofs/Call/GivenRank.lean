import KernelCall.Proofs.Call.Selection

/-!
# Dispatches of a given rank

The rank that a call is aligned with is the caller's to choose; nothing says that it is the one that
resolving has found. Aligning looks at the rank for the leaves that it maps itself, and refuses those
with more dimensions than there are. A mapping that is there already, from axes that were pinned or
from aligning before, is kept and not compared with the rank.

So no axis lies beyond a rank that is at least the one that was found, and some axis does beyond any
smaller rank that goes through. Which is the case can be told before aligning. The rank that is found
accounts for all axes that some grid has; of pinning the greatest word nothing is said here.
-/

namespace KernelCall

open Code

namespace Node

/-- What a leaf becomes in a dispatch of some rank. -/
structure AlignedIn (rank : Nat) (n m : Node) : Prop where
  resolved : m.mapping.isResolved
  /-- A mapping is kept, whatever the rank. -/
  kept : n.mapping.isResolved → m.mapping = n.mapping
  /-- A leaf without one is mapped onto the last axes, as many as it has dimensions. -/
  trailing : n.mapping = .unresolved → ∃ d ≤ rank, n.dimensionality? = some d ∧
    m.mapping = .onto (List.range' (rank - d) d)

theorem alignedIn_of_align {dispatch : Dispatch} {n m : Node} (h : n.align dispatch = .ok m) :
    n.AlignedIn dispatch.rank m := by
  obtain ⟨d, hd, -, hroom, rfl⟩ := align_eq_ok_iff.mp h
  refine ⟨isResolved_placed d dispatch.rank n, fun hmapping ↦ ?_, fun hunresolved ↦ ?_⟩
  · rw [placed, if_pos hmapping]
  · have hopen : ¬ n.mapping.isResolved := by simp [hunresolved]
    rw [placed, if_neg hopen]
    exact ⟨d, hroom.resolve_left hopen, hd, rfl⟩

/-- The dimensionality of a leaf is known, and if the leaf has a mapping onto axes of some grid it is
as far as that reaches. -/
def Measured (n : Node) : Prop :=
  ∃ d, n.dimensionality? = some d ∧
    (n.mapping.isResolved → n.mapping.Addressable → d = n.reach)

theorem measured_of_resolve {n m : Node} (h : n.resolve.result? = some m) : m.Measured := by
  obtain ⟨k, -, hm⟩ := result?_resolve_eq_some_iff.mp h
  obtain ⟨t, d, -, hd, rfl⟩ := assignDimensionality_eq_ok_iff.mp hm
  refine ⟨d, rfl, fun hresolved haddressable ↦ ?_⟩
  have hresolved : k.mapping.isResolved := hresolved
  have haddressable : k.mapping.Addressable := haddressable
  rw [if_pos hresolved] at hd
  obtain rfl := Option.some.inj hd
  rw [reach]
  -- an unresolved mapping is excluded, and the extent of any other is that of its axes
  rcases hmapping : k.mapping with _ | l
  · rw [hmapping] at hresolved
    exact absurd hresolved (by simp)
  · rw [hmapping] at haddressable
    exact haddressable.extent_eq

theorem AlignedIn.reach_le_iff {rank d : Nat} {n m : Node} (h : n.AlignedIn rank m)
    (hn : n.Measured) (haxes : n.mapping.Addressable) (hd : n.dimensionality? = some d) :
    m.reach ≤ rank ↔ d ≤ rank := by
  obtain ⟨d', hd', hreach⟩ := hn
  obtain rfl : d = d' := by simpa [hd] using hd'
  by_cases hmapping : n.mapping.isResolved
  · rw [hreach hmapping haxes, reach, reach, h.kept hmapping]
  · obtain ⟨d', hle, hd', hmap⟩ := h.trailing (Mapping.eq_unresolved hmapping)
    obtain rfl : d = d' := by simpa [hd] using hd'
    apply iff_of_true _ hle
    rw [reach, hmap, Mapping.axes_onto]
    rcases Nat.eq_zero_or_pos d with rfl | hpos
    · exact Nat.zero_le rank
    · exact (greatest_range' hpos hle).le

end Node

namespace Call

/-- What a call becomes in a dispatch of a rank that its caller has chosen. -/
structure AlignedIn (rank : Nat) (c c' : Call) : Prop where
  leaves : List.Forall₂ (Node.AlignedIn rank) c.leaves c'.leaves
  /-- Axes that are pinned are the mapping. -/
  pinned : ∀ n ∈ c'.leaves, ∀ l, n.pin? = some (.axes l) → n.mapping = .onto l
  /-- The constants that can be read in the code of each part. -/
  constants : ∀ v ∈ c'.roots, ∀ u ∈ v.parts, ∀ isRoot code,
    u.typeCommands rank isRoot = .ok code →
      constant? [] u.name [] code = some (u.constantAxes rank)
  /-- Where leaves are mapped onto axes of some grid, none of these has an axis beyond the rank if and
  only if the rank is at least the one that resolving has found. -/
  inRange : (∀ n ∈ c.leaves, n.mapping.Addressable) →
    ((∀ v ∈ c'.roots, ∀ u ∈ v.parts, ∀ axis ∈ u.constantAxes rank, axis < rank) ↔
      c.gridRank ≤ rank)

theorem ranked_of_resolve {c c' : Call} (h : c.resolve.result? = some c') :
    (∀ v ∈ c'.roots, v.Ranked) ∧ ∀ n ∈ c'.leaves, n.Measured := by
  rw [result?_resolve] at h
  constructor
  · intro w hw
    obtain ⟨v, -, hvw⟩ := exists_of_mem_mapM (roots_of_mapM? h) hw
    refine Variable.ranked_of_walk? (fun n m hm ↦ ?_) (fun fs n m hm ↦ ?_) hvw
    · obtain ⟨d, hd, -⟩ := Node.measured_of_resolve hm
      exact Option.isSome_of_eq_some hd
    · obtain ⟨t, -, rfl⟩ := Node.resolveContainer_eq_ok_iff.mp (toOption_eq_some_iff.mp hm)
      rfl
  · intro m hm
    obtain ⟨n, -, hnm⟩ := exists_of_forall₂_right (leaves_of_mapM? h) hm
    exact Node.measured_of_resolve hnm

theorem leaves_of_align {dispatch : Dispatch} {c c' : Call}
    (h : (c.align dispatch).result? = some c') :
    List.Forall₂ (Node.AlignedIn dispatch.rank) c.leaves c'.leaves := by
  rw [result?_align] at h
  exact (leaves_of_mapM? h).imp fun n m hnm ↦
    Node.alignedIn_of_align (toOption_eq_some_iff.mp hnm)

theorem reach_le_iff_of_alignedIn {rank : Nat} {ns ms : List Node}
    (h : List.Forall₂ (Node.AlignedIn rank) ns ms) (hns : ∀ n ∈ ns, n.Measured)
    (haxes : ∀ n ∈ ns, n.mapping.Addressable) :
    (∀ m ∈ ms, m.reach ≤ rank) ↔ greatest (ns.filterMap (·.dimensionality?)) ≤ rank := by
  induction h with
  | nil => simp [greatest_nil]
  | @cons n m ns ms hnm _ ih =>
    rw [List.forall_mem_cons] at hns haxes
    obtain ⟨d, hd, -⟩ := id hns.1
    have hranks : (n :: ns).filterMap (·.dimensionality?) =
        d :: ns.filterMap (·.dimensionality?) := List.filterMap_cons_some hd
    rw [List.forall_mem_cons, hranks, greatest_cons, Nat.max_le, ih hns.2 haxes.2,
      hnm.reach_le_iff hns.1 haxes.1 hd]

/-- The axes of leaves are those that matter: a dictionary lists the axes of the dispatch. -/
theorem constantAxes_lt_iff {rank : Nat} (c : Call) :
    (∀ v ∈ c.roots, ∀ u ∈ v.parts, ∀ axis ∈ u.constantAxes rank, axis < rank) ↔
      ∀ n ∈ c.leaves, n.reach ≤ rank := by
  have hreach : ∀ n : Node, n.reach ≤ rank ↔ ∀ axis ∈ n.mapping.axes, axis < rank := by
    intro n
    rw [Node.reach, greatest_le_iff, List.forall_mem_map]
    rfl
  constructor
  · intro h n hn
    obtain ⟨v, hv, hnv⟩ := List.mem_flatMap.mp hn
    exact (hreach n).mpr (h v hv (.leaf n) (Variable.mem_leaves_iff.mp hnv))
  · intro h v hv u hu
    rcases u with n | ⟨n, fs⟩
    · have hn : n ∈ c.leaves := List.mem_flatMap.mpr ⟨v, hv, Variable.mem_leaves_iff.mpr hu⟩
      exact (hreach n).mp (h n hn)
    · intro axis haxis
      exact List.mem_range.mp haxis

/-- **A rank that is given.** Over a call of some arguments, after any passes, let resolving and
aligning with a dispatch of any rank go through. The leaves that have no mapping then are mapped onto
the last axes of that dispatch, all others keep theirs, and unless one of these has the greatest word
for an axis, the constants list axes of the dispatch alone if and only if the rank is at least the one
that resolving has found. -/
theorem alignedIn_of_ofArguments {registry : MarshallRegistry} {a : Arguments} {start c c' : Call}
    {ps : List Pass} {dispatch : Dispatch} (hstart : ofArguments registry a = .ok start)
    (hresolve : (start.after ps).resolve.result? = some c)
    (halign : (c.align dispatch).result? = some c') : c.AlignedIn dispatch.rank c' := by
  obtain ⟨hranked, hmeasured⟩ := ranked_of_resolve hresolve
  have hleaves := leaves_of_align halign
  constructor
  · exact hleaves
  · intro n hn
    have hafter : c' = start.after (ps ++ [.resolve, .align dispatch]) := by
      rw [after_append, ← Progress.state_of_result? halign, ← Progress.state_of_result? hresolve]
      rfl
    obtain ⟨v, hv, hnv⟩ := List.mem_flatMap.mp hn
    have hreached := (reached_start hstart).after (ps ++ [.resolve, .align dispatch])
    rw [← hafter] at hreached
    exact (hreached.consistent v hv n (Variable.mem_nodes_of_mem_leaves hnv)).axes
  · intro v _ u _ isRoot code hcode
    exact Variable.constant?_own hcode []
  · intro haxes
    rw [constantAxes_lt_iff, reach_le_iff_of_alignedIn hleaves hmeasured haxes,
      ← gridRank_eq_greatest hranked]

/-- The passes that bind a row to a kernel and pin it to the axis 3. -/
def pinnedRow : List Pass :=
  [.bind scale, .vectorize ⟨.standard, .builtin⟩ { args := [.pin (.axes [3])] }]

/-- The row in a dispatch of rank 4, which has the axis. -/
theorem alignedIn_row : ∃ start c c', ofArguments .builtin row = .ok start ∧
    (start.after pinnedRow).resolve.result? = some c ∧
      (c.align { rank := 4 }).result? = some c' ∧ c.AlignedIn 4 c' :=
  ⟨_, _, _, rfl, rfl, rfl, @alignedIn_of_ofArguments .builtin row _ _ _ pinnedRow { rank := 4 } rfl rfl rfl⟩

/-- **An axis beyond the rank.** Every pass goes through, and the row is mapped onto the axis 3 of a
dispatch of rank 1. -/
theorem exists_axis_beyond_rank :
    ∃ c ∈ ((ofArguments .builtin row).toOption.bind fun c ↦ (c.bind scale).result?.bind fun c ↦
        (c.vectorize ⟨.standard, .builtin⟩ { args := [.pin (.axes [3])] }).result?.bind fun c ↦
          c.resolve.result?.bind fun c ↦ (c.align { rank := 1 }).result?),
      ∃ n ∈ c.leaves, ∃ axis ∈ n.mapping.axes, ¬ axis < 1 := by
  decide +kernel

end Call

end KernelCall
