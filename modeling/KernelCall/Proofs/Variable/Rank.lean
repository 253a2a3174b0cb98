import KernelCall.Call.Basic
import KernelCall.Proofs.Variable.Walk

/-!
# Ranks

The rank of a list of dimensionalities is the greatest of them, and 0 if there are none. A resolved
dictionary takes part in as many dispatch dimensions as the field with the most, so the rank of a
variable is that of its leaves, and the rank of a dispatch that of all leaves of the call.
-/

namespace KernelCall

/-! ## Greatest members -/

/-- The greatest of some numbers; 0 if there are none. -/
def greatest (ns : List Nat) : Nat := ns.max?.getD 0

theorem greatest_nil : greatest [] = 0 := rfl

theorem greatest_cons (n : Nat) (ns : List Nat) : greatest (n :: ns) = max n (greatest ns) := by
  rw [greatest, greatest, List.max?_cons]
  cases ns.max? with
  | none => exact (Nat.max_zero n).symm
  | some m => rfl

theorem greatest_append (ns ms : List Nat) : greatest (ns ++ ms) = max (greatest ns) (greatest ms) := by
  induction ns with
  | nil => exact (Nat.zero_max _).symm
  | cons n ns ih => rw [List.cons_append, greatest_cons, greatest_cons, ih, Nat.max_assoc]

theorem le_greatest {n : Nat} {ns : List Nat} (h : n ∈ ns) : n ≤ greatest ns := by
  induction ns with
  | nil => cases h
  | cons m ns ih =>
    rw [greatest_cons]
    rcases List.mem_cons.mp h with rfl | h
    · exact Nat.le_max_left n _
    · exact Nat.le_trans (ih h) (Nat.le_max_right m _)

theorem greatest_le_iff {b : Nat} {ns : List Nat} : greatest ns ≤ b ↔ ∀ n ∈ ns, n ≤ b := by
  induction ns with
  | nil => simp [greatest_nil]
  | cons n ns ih => rw [greatest_cons, Nat.max_le, ih, List.forall_mem_cons]

theorem greatest_mem {ns : List Nat} (h : greatest ns ≠ 0) : greatest ns ∈ ns := by
  rw [greatest] at h ⊢
  cases hmax : ns.max? with
  | none => rw [hmax] at h; exact absurd rfl h
  | some n => exact List.max?_mem hmax

/-! ## Variables -/

namespace Variable

/-- The dimensionalities of the leaves that have one. -/
def leafRanks (v : Variable) : List Nat := v.leaves.filterMap (·.dimensionality?)

mutual

/-- Dimensionalities are known, and those of dictionaries follow from their fields. -/
def Ranked : Variable → Prop
  | leaf n => n.dimensionality?.isSome
  | dict n fs =>
    n.dimensionality? = some (greatest (fs.filterMap (·.node.dimensionality?))) ∧ FieldsRanked fs

def FieldsRanked : List Variable → Prop
  | [] => True
  | v :: vs => Ranked v ∧ FieldsRanked vs

end

theorem fieldsRanked_iff {vs : List Variable} : FieldsRanked vs ↔ ∀ v ∈ vs, v.Ranked := by
  induction vs with
  | nil => simp [FieldsRanked]
  | cons v vs ih => rw [FieldsRanked, ih, List.forall_mem_cons]

/-- A walk that gives each leaf a dimensionality, and each dictionary the greatest of its fields',
leaves a variable ranked. -/
theorem ranked_of_walk? {l : Node → Option Node} {d : List Variable → Node → Option Node}
    (hl : ∀ n m, l n = some m → m.dimensionality?.isSome)
    (hd : ∀ fs n m, d fs n = some m →
      m.dimensionality? = some (greatest (fs.filterMap (·.node.dimensionality?))))
    {v w : Variable} (h : v.walk? l d = some w) : w.Ranked := by
  induction v generalizing w with
  | leaf n =>
    obtain ⟨m, hm, rfl⟩ := walk?_leaf_eq_some_iff.mp h
    exact hl n m hm
  | dict n fs ih =>
    obtain ⟨ws, m, hws, hm, rfl⟩ := walk?_dict_eq_some_iff.mp h
    rw [Ranked, fieldsRanked_iff]
    refine ⟨hd ws n m hm, fun w hw ↦ ?_⟩
    obtain ⟨v, hv, hvw⟩ := exists_of_mem_mapM hws hw
    exact ih v hv hvw

theorem greatest_ranks_of_forall {vs : List Variable}
    (h : ∀ v ∈ vs, v.node.dimensionality? = some (greatest v.leafRanks)) :
    greatest (vs.filterMap (·.node.dimensionality?)) =
      greatest ((vs.flatMap leaves).filterMap (·.dimensionality?)) := by
  induction vs with
  | nil => rfl
  | cons v vs ih =>
    rw [List.forall_mem_cons] at h
    have hhead : (v :: vs).filterMap (·.node.dimensionality?) =
        greatest v.leafRanks :: vs.filterMap (·.node.dimensionality?) :=
      List.filterMap_cons_some h.1
    rw [List.flatMap_cons, List.filterMap_append, greatest_append, ← ih h.2, hhead, greatest_cons]
    rfl

/-- **The rank of a variable is that of its leaves.** -/
theorem Ranked.dimensionality? {v : Variable} (h : v.Ranked) :
    v.node.dimensionality? = some (greatest v.leafRanks) := by
  induction v with
  | leaf n =>
    obtain ⟨d, hd⟩ := Option.isSome_iff_exists.mp h
    have hranks : (leaf n).leafRanks = [d] := List.filterMap_cons_some hd
    rw [node_leaf, hd, hranks, greatest_cons, greatest_nil, Nat.max_zero]
  | dict n fs ih =>
    rw [Ranked, fieldsRanked_iff] at h
    rw [node_dict, h.1, greatest_ranks_of_forall fun v hv ↦ ih v hv (h.2 v hv), leafRanks,
      leaves_dict]

end Variable

/-- **The rank of a dispatch is that of its leaves.** -/
theorem Call.gridRank_eq_greatest {c : Call} (h : ∀ v ∈ c.roots, v.Ranked) :
    c.gridRank = greatest (c.leaves.filterMap (·.dimensionality?)) :=
  Variable.greatest_ranks_of_forall fun v hv ↦ (h v hv).dimensionality?

theorem Call.rank_le_gridRank {c : Call} (h : ∀ v ∈ c.roots, v.Ranked) {n : Node} {rank : Nat}
    (hn : n ∈ c.leaves) (hrank : n.dimensionality? = some rank) : rank ≤ c.gridRank := by
  rw [gridRank_eq_greatest h]
  exact le_greatest (List.mem_filterMap.mpr ⟨n, hn, hrank⟩)

end KernelCall
