import KernelCall.Proofs.Call.GivenRank
import KernelCall.Proofs.Halting

/-!
# Aligning leaf by leaf

Aligning works on the leaves in order, at whatever depth they are, and stops at the first one that
it refuses. So the state that it leaves can be told from the leaves alone: those before the one that
is refused are aligned, and all others are as they were. The dispatch may be any, and so may what
has been done to the call since it was resolved, for no pass takes the dimensionality of a leaf away
again.

A leaf is refused for two reasons, of which being partial comes first. A leaf that has a mapping
already can only be refused for being partial.
-/

namespace KernelCall

/-! ## Leaves that are refused -/

namespace Node

/-- Why aligning refuses a leaf, if it does. Where broadcasting is strict, a leaf that is not pinned
must take part in all dimensions of the dispatch or in none; and a leaf without a mapping must not
have more dimensions than the dispatch. -/
def refusal? (dispatch : Dispatch) (n : Node) : Option Fault :=
  n.dimensionality?.bind fun d ↦
    if dispatch.strict ∧ n.pin? = none ∧ d ≠ 0 ∧ d ≠ dispatch.rank then
      some (.partialRank n.path d dispatch.rank)
    else if n.mapping = .unresolved ∧ dispatch.rank < d then
      some (.rankExceedsGrid n.path d dispatch.rank)
    else none

/-- The error that blames a leaf for being refused. -/
def blame? (dispatch : Dispatch) (n : Node) : Option BindError :=
  (n.refusal? dispatch).map (·.blame n.path)

/-- A leaf that is not refused: if it has no mapping, it is mapped onto the last axes of the
dispatch, as many as it has dimensions. -/
def alignedTo (rank : Nat) (n : Node) : Node := n.placed (n.dimensionality?.getD 0) rank

/-- Once its dimensionality is known, a leaf is refused or aligned. -/
theorem align_eq (dispatch : Dispatch) {n : Node} (h : n.dimensionality?.isSome) :
    n.align dispatch = match n.blame? dispatch with
      | some e => .error e
      | none => .ok (n.alignedTo dispatch.rank) := by
  obtain ⟨d, hd⟩ := Option.isSome_iff_exists.mp h
  have hpartial : (dispatch.strict && n.pin?.isNone && d != 0 && d != dispatch.rank) = true ↔
      dispatch.strict ∧ n.pin? = none ∧ d ≠ 0 ∧ d ≠ dispatch.rank := by
    simp [and_assoc]
  rw [align, blame?, refusal?, alignedTo, hd, Option.bind_some, Option.getD_some]
  -- being partial is looked at first
  by_cases hstrict : dispatch.strict ∧ n.pin? = none ∧ d ≠ 0 ∧ d ≠ dispatch.rank
  · rw [if_pos hstrict]
    exact if_pos (hpartial.mpr hstrict)
  rw [if_neg hstrict]
  refine (if_neg (mt hpartial.mp hstrict)).trans ?_
  -- a mapping that is there is kept, however many dimensions the leaf has
  by_cases hmapping : n.mapping.isResolved
  · have hkept : ¬ (n.mapping = .unresolved ∧ dispatch.rank < d) := by
      rintro ⟨hunresolved, -⟩
      rw [hunresolved] at hmapping
      cases hmapping
    rw [if_pos hmapping, if_neg hkept, placed, if_pos hmapping]
    rfl
  rw [if_neg hmapping, Mapping.trailing?, placed, if_neg hmapping]
  by_cases hle : d ≤ dispatch.rank
  · rw [if_pos hle, if_neg fun hrefused ↦ Nat.not_lt.mpr hle hrefused.2, hd]
    rfl
  · rw [if_neg hle, if_pos ⟨Mapping.eq_unresolved hmapping, Nat.lt_of_not_le hle⟩]
    rfl

end Node

/-! ## Aligning in order -/

namespace Variable

theorem halting_align (dispatch : Dispatch) {v : Variable}
    (h : ∀ n ∈ v.leaves, n.dimensionality?.isSome) :
    Progress.Halting leaves (Node.blame? dispatch) (Node.alignedTo dispatch.rank) v
      (v.align dispatch) := by
  induction v with
  | leaf n =>
    rw [align, Node.align_eq dispatch (h n (by simp))]
    cases hblame : n.blame? dispatch with
    | none =>
      change Progress.Halting _ _ _ (leaf n) (.done (leaf (n.alignedTo dispatch.rank)))
      apply Progress.Halting.through
      · intro m hm
        rw [List.mem_singleton.mp hm, hblame]
      · rfl
    | some e =>
      have hsplit : (leaf n).leaves = [] ++ n :: [] := leaves_leaf n
      change Progress.Halting _ _ _ (leaf n) (.stopped (leaf n) e)
      exact .halted hsplit (List.forall_mem_nil _) hblame hsplit
  | dict n fs ih =>
    have hfields := Progress.halting_traverse fun f hf ↦
      ih f hf fun m hm ↦ h m (mem_leaves_of_field hf hm)
    rw [align, alignFields_eq_traverse]
    exact hfields.map (leaves_dict n)

end Variable

namespace Call

theorem halting_align (dispatch : Dispatch) {c : Call}
    (h : ∀ n ∈ c.leaves, n.dimensionality?.isSome) :
    Progress.Halting leaves (Node.blame? dispatch) (Node.alignedTo dispatch.rank) c
      (c.align dispatch) := by
  have hroot : ∀ v ∈ c.roots, Progress.Halting Variable.leaves (Node.blame? dispatch)
      (Node.alignedTo dispatch.rank) v (v.align dispatch) := fun v hv ↦
    Variable.halting_align dispatch fun n hn ↦ h n (List.mem_flatMap.mpr ⟨v, hv, hn⟩)
  have hargs := Progress.halting_traverse fun v hv ↦ hroot v (List.mem_append_left _ hv)
  have hkwargs := Progress.halting_traverse fun v hv ↦ hroot v (List.mem_append_right _ hv)
  have hleaves : ∀ args kwargs, leaves { c with args, kwargs } =
      args.flatMap Variable.leaves ++ kwargs.flatMap Variable.leaves := fun _ _ ↦
    List.flatMap_append
  exact hargs.andThen hkwargs hleaves

end Call

/-! ## After resolving -/

namespace Node

/-- A pass over the node keeps a dimensionality, or assigns another. -/
def StaysMeasured (n m : Node) : Prop := n.dimensionality?.isSome → m.dimensionality?.isSome

theorem staysMeasured_of_pin {lookup : Lookup} {p : Pin} {n m : Node} (h : n.pin lookup p = .ok m) :
    n.StaysMeasured m := by
  obtain ⟨t, -, rfl⟩ := pin_eq_ok_iff.mp h
  exact id

theorem staysMeasured_resolve (n : Node) : n.StaysMeasured n.resolve.state := by
  have htype : n.StaysMeasured (Progress.ofExcept n n.assignType).state := by
    refine Progress.state_ofExcept_cases (motive := n.StaysMeasured) id fun m hm ↦ ?_
    obtain ⟨_, rfl⟩ := retyped_of_assignType hm
    exact id
  refine Progress.state_andThen_cases (motive := n.StaysMeasured) htype ?_
  refine Progress.state_ofExcept_cases (motive := n.StaysMeasured) htype fun m hm _ ↦ ?_
  obtain ⟨t, d, -, -, rfl⟩ := assignDimensionality_eq_ok_iff.mp hm
  rfl

theorem staysMeasured_of_resolveContainer {fs : List Variable} {n m : Node}
    (h : n.resolveContainer fs = .ok m) : n.StaysMeasured m := by
  intro _
  obtain ⟨t, -, rfl⟩ := resolveContainer_eq_ok_iff.mp h
  rfl

end Node

namespace Call

/-- Every leaf has a dimensionality. -/
def Measured (c : Call) : Prop := ∀ n ∈ c.leaves, n.dimensionality?.isSome

theorem measured_of_resolve {c c' : Call} (h : c.resolve.result? = some c') : c'.Measured := by
  intro n hn
  obtain ⟨d, hd, -⟩ := (ranked_of_resolve h).2 n hn
  exact Option.isSome_of_eq_some hd

theorem forall₂_roots_traverse {R : Variable → Variable → Prop} {f : Variable → Progress Variable}
    (hself : ∀ v, R v v) (hf : ∀ v, R v (f v).state) (c : Call) :
    List.Forall₂ R c.roots (c.traverse f).state.roots := by
  have hall : ∀ vs, List.Forall₂ R vs (Progress.traverse f vs).state := fun vs ↦
    Progress.forall₂_state_traverse (fun v _ ↦ hf v) fun v _ ↦ hself v
  apply Progress.state_andThen_cases (motive := fun c' : Call ↦ List.Forall₂ R c.roots c'.roots)
  · exact List.rel_append (hall c.args) (List.forall₂_same.mpr fun v _ ↦ hself v)
  · exact List.rel_append (hall c.args) (hall c.kwargs)

/-- No pass takes a dimensionality away. -/
theorem related_leave (p : Pass) (c : Call) :
    List.Forall₂ (Variable.Related Node.StaysMeasured) c.roots (p.leave c).roots := by
  cases p with
  | bind f =>
    have hrebound : ∀ n m : Node, n.Rebound m → n.StaysMeasured m := by
      rintro n m ⟨_, _, _, _, rfl⟩
      exact id
    exact (c.altered_bind f).related_roots (fun _ ↦ hrebound) hrebound
  | vectorize lookup o =>
    apply (c.altered_vectorize lookup o).related_roots
    · rintro p? n m (rfl | ⟨p, -, hm⟩)
      · exact id
      · exact Node.staysMeasured_of_pin hm
    · rintro n m (rfl | ⟨p, -, hm⟩)
      · exact id
      · exact Node.staysMeasured_of_pin hm
  | resolve =>
    apply forall₂_roots_traverse
    · exact fun v ↦ Variable.related_self fun n _ ↦ id
    · exact Variable.related_resolve (fun n ↦ id) Node.staysMeasured_resolve fun fs n m ↦
        Node.staysMeasured_of_resolveContainer
  | align dispatch =>
    apply (c.altered_align dispatch).related_roots
    · rintro _ n m (rfl | ⟨-, _, rfl⟩) <;> exact id
    · rintro n m rfl
      exact id
  | differentiate mode =>
    have hdifferentiated : ∀ n m : Node, n.Differentiated m → n.StaysMeasured m := by
      rintro n m (rfl | ⟨_, _, rfl⟩) <;> exact id
    exact (c.altered_differentiate mode).related_roots (fun _ ↦ hdifferentiated) hdifferentiated

theorem Measured.after {c : Call} (h : c.Measured) (ps : List Pass) : (c.after ps).Measured := by
  induction ps generalizing c with
  | nil => exact h
  | cons p ps ih =>
    apply ih
    intro m hm
    have hleaves := rel_flatMap_of_mem (related_leave p c) fun _ _ _ _ hvw ↦ hvw.forall₂_leaves
    obtain ⟨n, hn, hnm⟩ := exists_of_forall₂_right hleaves hm
    exact hnm (h n hn)

/-! ## How far aligning comes -/

/-- What a pass leaves that has aligned a call. -/
structure AlignedInOrder (dispatch : Dispatch) (c : Call) (p : Progress Call) : Prop where
  /-- Leaves have been aligned in order, up to the first that is refused; its error is that of the
  pass. -/
  leaves : p.Halting Call.leaves (Node.blame? dispatch) (Node.alignedTo dispatch.rank) c
  /-- If none is refused, every leaf has a mapping. -/
  mapped : p.error? = none → ∀ n ∈ p.state.leaves, n.mapping.isResolved
  /-- Dictionaries are as they were, and so is all of a leaf but a mapping that it did not have. -/
  rest : c.Altered (fun _ ↦ Node.Aligned) Eq {} p.state
  function : p.state.function? = c.function?

theorem AlignedInOrder.of_measured {c : Call} (h : c.Measured) (dispatch : Dispatch) :
    c.AlignedInOrder dispatch (c.align dispatch) := by
  have hleaves := halting_align dispatch h
  refine ⟨hleaves, fun herror m hm ↦ ?_, c.altered_align dispatch, function?_traverse c _⟩
  generalize c.align dispatch = p at hleaves herror hm
  cases hleaves with
  | through _ hleft =>
    rw [Progress.state_done, hleft] at hm
    obtain ⟨n, -, rfl⟩ := List.mem_map.mp hm
    exact n.isResolved_placed _ dispatch.rank
  | halted => cases herror

/-- **Aligning leaf by leaf.** Once a call has been resolved, and whatever passes have gone over it
since, aligning it with any dispatch aligns the leaves before the first that is refused, stops with
the error of that leaf, and changes nothing else. -/
theorem alignedInOrder_of_resolve {c c' : Call} (h : c.resolve.result? = some c') (ps : List Pass)
    (dispatch : Dispatch) :
    (c'.after ps).AlignedInOrder dispatch ((c'.after ps).align dispatch) :=
  .of_measured ((measured_of_resolve h).after ps) dispatch

/-- A kernel that takes three numbers. -/
def combine : Function where
  name := "combine"
  params := ["a", "b", "c"].map fun name ↦ { name, type := .scalar .float }

/-- A number, a grid and a row, bound to the kernel. -/
def numberGridRow : Call :=
  let grid := .buffer { element := .scalar .float, extents := [3, 4] }
  let row := .buffer { element := .scalar .float, extents := [4] }
  ((ofArguments .builtin { args := [.float 1, grid, row] }).toOption.getD {}).after [.bind combine]

/-- In a strict dispatch over the grid the row is refused, after the grid has been aligned. -/
theorem alignedInOrder_numberGridRow : ∃ c, numberGridRow.resolve.result? = some c ∧
    (c.after []).AlignedInOrder ⟨2, true⟩ ((c.after []).align ⟨2, true⟩) ∧
      ((c.after []).align ⟨2, true⟩).error?.map (·.kind) = some .strictBroadcasting :=
  ⟨_, rfl, @alignedInOrder_of_resolve numberGridRow _ rfl [] ⟨2, true⟩, rfl⟩

end Call

end KernelCall
