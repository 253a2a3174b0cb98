import KernelCall.Proofs.Call.Errors
import KernelCall.Proofs.Call.Pins
import KernelCall.Proofs.Call.Run
import KernelCall.Proofs.Text.Count

/-!
# The rank of the dispatch

The rank is inferred before default mappings exist, from dimensionalities that mean two things: the
greatest axis plus one for a leaf with axes of its own, the number of dimensions left over for any
other. Once the leaves have been aligned both come to the same: the leaf that sets the rank has an
axis right below it, and no leaf has one beyond.

Ranks are counted in machine words, so the greatest word is an axis that no grid has. One more than
that is 0, and a leaf that is pinned to it asks for no dimension at all.
-/

namespace KernelCall

/-! ## Extents -/

theorem greatest_eq_of_mem {n : Nat} {ns : List Nat} (hn : n ∈ ns) (h : ∀ m ∈ ns, m ≤ n) :
    greatest ns = n :=
  Nat.le_antisymm (greatest_le_iff.mpr h) (le_greatest hn)

theorem max?_elim_eq_greatest (l : List Nat) : l.max?.elim 0 (· + 1) = greatest (l.map (· + 1)) := by
  cases hmax : l.max? with
  | none =>
    rw [List.max?_eq_none_iff.mp hmax]
    rfl
  | some n =>
    obtain ⟨hn, hle⟩ := List.max?_eq_some_iff.mp hmax
    refine (greatest_eq_of_mem (List.mem_map_of_mem hn) ?_).symm
    intro m hm
    obtain ⟨k, hk, rfl⟩ := List.mem_map.mp hm
    exact Nat.succ_le_succ (hle k hk)

/-- Some grid has all axes of the mapping: none of them is the greatest word. -/
def Mapping.Addressable (m : Mapping) : Prop := ∀ axis ∈ m.axes, axis < Text.maxCount

/-- No axes in the overrides have the greatest word among them. -/
def Vectorization.Addressable (o : Vectorization) : Prop :=
  ∀ x l, o.at? x = some (.pin (.axes l)) → (Mapping.onto l).Addressable

theorem Mapping.Addressable.extent_eq {l : List Nat} (h : (Mapping.onto l).Addressable) :
    (Mapping.onto l).extent = greatest (l.map (· + 1)) := by
  rw [← max?_elim_eq_greatest, Node.extent_onto]
  cases hmax : l.max? with
  | none => rfl
  | some axis => exact Text.succCount_of_lt (h axis (List.max?_mem hmax))

/-- The rank up to which the mapping of a leaf reaches. -/
def Node.reach (n : Node) : Nat := greatest (n.mapping.axes.map (· + 1))

theorem greatest_flatMap_axes (ns : List Node) :
    greatest ((ns.flatMap (·.mapping.axes)).map (· + 1)) = greatest (ns.map Node.reach) := by
  induction ns with
  | nil => rfl
  | cons n ns ih =>
    rw [List.flatMap_cons, List.map_append, greatest_append, ih, List.map_cons, greatest_cons,
      Node.reach]

theorem greatest_range' {rank gridRank : Nat} (hpos : 0 < rank) (hle : rank ≤ gridRank) :
    greatest ((List.range' (gridRank - rank) rank).map (· + 1)) = gridRank := by
  refine greatest_eq_of_mem (List.mem_map.mpr ⟨gridRank - 1, ?_, by omega⟩) fun n hn ↦ ?_
  · rw [List.mem_range'_1]
    omega
  · obtain ⟨m, hm, rfl⟩ := List.mem_map.mp hn
    rw [List.mem_range'_1] at hm
    omega

namespace Node

theorem isResolved_of_settledLeaf? {lookup : Lookup} {settings : Settings} {gridRank : Nat}
    {n m : Node} (h : n.settledLeaf? lookup settings gridRank = some m) : m.mapping.isResolved := by
  obtain ⟨t, rank, -, -, -, rfl⟩ := settledLeaf?_eq_some_iff.mp h
  change (n.settledMapping rank gridRank).isResolved
  rw [settledMapping]
  split <;> rfl

/-- A settled leaf reaches no further than the rank of the dispatch, and as far if its dimensionality
is the rank. -/
theorem reach_of_settledLeaf? {lookup : Lookup} {settings : Settings} {gridRank rank : Nat}
    {n m : Node} (h : n.settledLeaf? lookup settings gridRank = some m)
    (hrank : n.settledRank? lookup = some rank) (hle : rank ≤ gridRank)
    (hpin : ∀ l, n.pin? = some (.axes l) → (Mapping.onto l).Addressable) :
    m.reach ≤ gridRank ∧ (rank = gridRank → m.reach = gridRank) := by
  obtain ⟨t, rank, ht, hrank', -, rfl⟩ := settledLeaf?_eq_some_iff.mp h
  cases hrank.symm.trans hrank'
  have hdefault : greatest ((List.range' (gridRank - rank) rank).map (· + 1)) ≤ gridRank ∧
      (rank = gridRank →
        greatest ((List.range' (gridRank - rank) rank).map (· + 1)) = gridRank) := by
    rcases Nat.eq_zero_or_pos rank with rfl | hpos
    · exact ⟨Nat.zero_le gridRank, fun h ↦ h⟩
    · rw [greatest_range' hpos hle]
      exact ⟨Nat.le_refl gridRank, fun _ ↦ rfl⟩
  rw [reach, settledMapping]
  rw [settledRank?, ht, Option.bind_some] at hrank
  rcases hcase : n.pin? with _ | ⟨l | _ | _ | _⟩
  · exact hdefault
  · rw [hcase] at hrank
    have hreach : greatest (l.map (· + 1)) = rank := by
      rw [← (hpin l hcase).extent_eq, extent_onto]
      exact Option.some.inj hrank
    rw [Mapping.axes_onto, hreach]
    exact ⟨hle, id⟩
  · exact hdefault
  · exact hdefault
  · exact hdefault

end Node

namespace Call

theorem leaves_of_settled? {lookup : Lookup} {settings : Settings} {gridRank : Nat} {c c' : Call}
    (h : c.mapM? (Variable.settled? lookup settings gridRank) = some c') :
    List.Forall₂ (fun n m ↦ n.settledLeaf? lookup settings gridRank = some m)
      c.leaves c'.leaves := leaves_of_mapM? h

theorem PinnedBy.addressable {o : Vectorization} {c : Call} (h : c.PinnedBy o) (ho : o.Addressable)
    {n : Node} (hn : n ∈ c.leaves) {l : List Nat} (hpin : n.pin? = some (.axes l)) :
    (Mapping.onto l).Addressable := by
  obtain ⟨x, hx⟩ := h.placed n hn
  rw [h.pinned x n hx] at hpin
  obtain ⟨override, hat, hoverride⟩ := Option.bind_eq_some_iff.mp hpin
  cases override with
  | pin p =>
    cases hoverride
    exact ho x l hat
  | fields => cases hoverride

/-- The leaves of a built call have been settled one by one, and the greatest of their
dimensionalities is the rank. -/
theorem settledLeaves_of_build {lookup : Lookup} {settings : Settings} {f : Function}
    {a : Arguments} {o : Vectorization} {b : BuiltCall}
    (h : build lookup settings f a o = .ok b) : ∃ c ranks, designated? lookup f a o = some c ∧
      List.Forall₂ (fun n m ↦ n.settledLeaf? lookup settings b.gridRank = some m)
        c.leaves b.call.leaves ∧
      List.Forall₂ (fun n rank ↦ n.settledRank? lookup = some rank) c.leaves ranks ∧
      greatest ranks = b.gridRank := by
  obtain ⟨c, hc, hrank, hsettled, -⟩ := build_eq_ok_iff.mp h
  obtain ⟨ranks, hranks, hgrid⟩ := Option.map_eq_some_iff.mp hrank
  exact ⟨c, ranks, hc, leaves_of_settled? hsettled, mapM_eq_some_iff.mp hranks, hgrid⟩

section

variable {lookup : Lookup} {settings : Settings} {f : Function} {a : Arguments} {o : Vectorization}
  {b : BuiltCall}

theorem isResolved_of_build (h : build lookup settings f a o = .ok b) :
    ∀ n ∈ b.call.leaves, n.mapping.isResolved := by
  intro m hm
  obtain ⟨c, ranks, -, hleaves, -, -⟩ := settledLeaves_of_build h
  obtain ⟨n, -, hnm⟩ := exists_of_forall₂_right hleaves hm
  exact Node.isResolved_of_settledLeaf? hnm

/-- The leaf with the greatest dimensionality reaches up to the rank. -/
theorem greatest_reach_of_build (h : build lookup settings f a o = .ok b) (ho : o.Addressable) :
    (∀ m ∈ b.call.leaves, m.reach ≤ b.gridRank) ∧
      greatest (b.call.leaves.map Node.reach) = b.gridRank := by
  obtain ⟨c, ranks, hc, hleaves, hranks, hgrid⟩ := settledLeaves_of_build h
  have hpins : ∀ n ∈ c.leaves, ∀ l, n.pin? = some (.axes l) → (Mapping.onto l).Addressable :=
    fun n hn l ↦ (pinnedBy_of_designated? hc).2.addressable ho hn
  have hreach : ∀ m ∈ b.call.leaves, m.reach ≤ b.gridRank := by
    intro m hm
    obtain ⟨n, hn, hnm⟩ := exists_of_forall₂_right hleaves hm
    obtain ⟨rank, hrank, hnrank⟩ := exists_of_forall₂_left hranks hn
    exact (Node.reach_of_settledLeaf? hnm hnrank (hgrid ▸ le_greatest hrank) (hpins n hn)).1
  refine ⟨hreach, Nat.le_antisymm (greatest_le_iff.mpr (List.forall_mem_map.mpr hreach)) ?_⟩
  by_cases hzero : b.gridRank = 0
  · rw [hzero]
    exact Nat.zero_le _
  · have hmem : b.gridRank ∈ ranks := hgrid ▸ greatest_mem (hgrid ▸ hzero)
    obtain ⟨n, hn, hnrank⟩ := exists_of_forall₂_right hranks hmem
    obtain ⟨m, hm, hnm⟩ := exists_of_forall₂_left hleaves hn
    have htop := (Node.reach_of_settledLeaf? hnm hnrank (Nat.le_refl _) (hpins n hn)).2 rfl
    exact htop ▸ le_greatest (List.mem_map_of_mem hm)

end

/-! ## Errors -/

/-- **A build never fails with an error of dispatch rank.** -/
theorem raises_build (lookup : Lookup) (settings : Settings) (f : Function) (a : Arguments)
    (o : Vectorization) :
    Raises [.overrideArity, .malformedOverride, .bindingLookup, .strictBroadcasting,
      .nonWritableWrite, .marshall] (build lookup settings f a o) := by
  refine Raises.bind ((raises_prepare lookup f a o).mono (by simp)) fun c hc ↦ ?_
  obtain ⟨c₀, -, hresolved⟩ := prepare_eq_ok_iff.mp hc
  have hranked := ranked_of_resolved? hresolved
  refine Raises.bind (Progress.raises_toExcept (Progress.Raises.mono (raises_align ?_) (by simp)))
    fun c _ ↦ ?_
  · exact fun n hn rank hrank ↦ rank_le_gridRank hranked hn hrank
  refine Raises.bind (Progress.raises_toExcept ((c.raises_differentiate _).mono (by simp)))
    fun c _ ↦ ?_
  exact Raises.bind ((c.raises_emit _).mono (by simp)) fun m _ ↦ raises_ok _

/-- **The rank is the greatest axis plus one.** A build that goes through maps every leaf. Unless an
override has the greatest word for an axis, which no grid has, the rank is one more than the greatest
axis in the mapping of any leaf, or 0 if there is no axis, so that every leaf is mapped onto axes that
the dispatch has. A build that does not go through never fails because a leaf exceeds the rank. -/
theorem build_gridRank (lookup : Lookup) (settings : Settings) (f : Function) (a : Arguments)
    (o : Vectorization) :
    match build lookup settings f a o with
    | .ok b =>
      (∀ n ∈ b.call.leaves, n.mapping.isResolved) ∧
      (o.Addressable →
        b.gridRank = (match (b.call.leaves.flatMap (·.mapping.axes)).max? with
          | some axis => axis + 1
          | none => 0) ∧
        ∀ n ∈ b.call.leaves, ∀ axis ∈ n.mapping.axes, axis < b.gridRank)
    | .error e => e.kind ≠ .dispatchRank := by
  cases h : build lookup settings f a o with
  | error e =>
    have hkind := raises_build lookup settings f a o e h
    intro hrank
    rw [hrank] at hkind
    simp at hkind
  | ok b =>
    refine ⟨isResolved_of_build h, fun ho ↦ ?_⟩
    obtain ⟨hreach, htop⟩ := greatest_reach_of_build h ho
    refine ⟨?_, fun n hn axis haxis ↦ ?_⟩
    · rw [← htop, ← greatest_flatMap_axes, ← max?_elim_eq_greatest]
      cases (b.call.leaves.flatMap (·.mapping.axes)).max? <;> rfl
    · exact Nat.lt_of_lt_of_le (le_greatest (List.mem_map_of_mem haxis)) (hreach n hn)

/-- The two axes of a grid, swapped. -/
def transposed : Vectorization where
  args := [.pin (.axes [1, 0])]

theorem addressable_transposed : transposed.Addressable := by
  rintro ⟨root, names⟩ l h
  obtain ⟨override, hroot, hat⟩ := Option.bind_eq_some_iff.mp h
  have hpin : override = .pin (.axes [1, 0]) := by
    rcases root with (_ | index) | name
    · exact (Option.some.inj hroot).symm
    · cases hroot
    · cases hroot
  subst hpin
  cases names with
  | nil =>
    cases hat
    exact (by decide : ∀ axis ∈ [1, 0], axis < Text.maxCount)
  | cons name names => cases hat

theorem gridRank_transposed : ∃ b, build ⟨.standard, .builtin⟩ {} scale grid transposed = .ok b ∧
    (∀ n ∈ b.call.leaves, n.mapping.isResolved) ∧
      b.gridRank = (match (b.call.leaves.flatMap (·.mapping.axes)).max? with
        | some axis => axis + 1
        | none => 0) ∧
      ∀ n ∈ b.call.leaves, ∀ axis ∈ n.mapping.axes, axis < b.gridRank := by
  have hbuilds : (build ⟨.standard, .builtin⟩ {} scale grid transposed).toOption.isSome := by
    decide +kernel
  obtain ⟨b, hb⟩ := Option.isSome_iff_exists.mp hbuilds
  have hb := toOption_eq_some_iff.mp hb
  have h := build_gridRank ⟨.standard, .builtin⟩ {} scale grid transposed
  rw [hb] at h
  exact ⟨b, hb, h.1, h.2 addressable_transposed⟩

end Call

end KernelCall
