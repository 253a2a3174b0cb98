import KernelCall.Proofs.Call.GivenRank
import KernelCall.Proofs.Call.Run

/-!
# Calls with nothing left to decide

Once a call has been resolved and aligned every node has a type and every leaf a mapping, whatever
was done to the call before. A call is asked for what is left by its positional variables, and of
these only the root is looked at. The types come out right, since dictionaries have one too. But a
dictionary never has a mapping of its own, so the call says that a mapping is missing whenever an
argument by position is a dictionary, however complete the leaves below it are.
-/

namespace KernelCall

/-! ## Nodes -/

namespace Node

theorem isSome_vectorType_of_resolve {n m : Node} (h : n.resolve.result? = some m) :
    m.vectorType?.isSome := by
  obtain ⟨k, -, hm⟩ := result?_resolve_eq_some_iff.mp h
  obtain ⟨t, d, -, -, rfl⟩ := assignDimensionality_eq_ok_iff.mp hm
  rfl

theorem isSome_vectorType_of_resolveContainer {fs : List Variable} {n m : Node}
    (h : n.resolveContainer fs = .ok m) : m.vectorType?.isSome := by
  obtain ⟨t, -, rfl⟩ := resolveContainer_eq_ok_iff.mp h
  rfl

theorem Aligned.vectorType?_eq {n m : Node} (h : n.Aligned m) : m.vectorType? = n.vectorType? := by
  rcases h with rfl | ⟨-, _, rfl⟩ <;> rfl

end Node

/-! ## Variables -/

/-- Which variables are leaves shows in their skeletons. -/
theorem Variable.isLeaf_eq_of_skeleton_eq {v w : Variable} (h : v.skeleton = w.skeleton) :
    v.isLeaf = w.isLeaf := by
  cases v <;> cases w <;> first | rfl | (simp only [skeleton] at h; cases h)

theorem Variable.isLeaf_of_ofValue {registry : MarshallRegistry} {path name : String}
    {x : HostValue} {v : Variable} (h : ofValue registry path name x = .ok v) :
    v.isLeaf = false ↔ x.kind = .dict := by
  by_cases hkind : x.kind = .dict
  · cases x with
    | dict entries =>
      obtain ⟨m, fs, -, -, rfl⟩ := ofValue_eq_dict h
      exact iff_of_true rfl rfl
    | _ => cases hkind
  · obtain ⟨m, -, rfl⟩ := ofValue_eq_leaf hkind h
    exact iff_of_false nofun hkind

/-! ## Calls -/

namespace Call

theorem isSome_vectorType_of_resolve {c c' : Call} (h : c.resolve.result? = some c') :
    ∀ v ∈ c'.roots, ∀ n ∈ v.nodes, n.vectorType?.isSome := by
  rw [result?_resolve] at h
  intro w hw
  obtain ⟨v, -, hvw⟩ := exists_of_mem_mapM (roots_of_mapM? h) hw
  have htyped : Variable.Related (fun _ m ↦ m.vectorType?.isSome) v w := by
    refine Variable.related_of_walk? (fun n m hm ↦ ?_) (fun fs n m hm ↦ ?_) hvw
    · exact Node.isSome_vectorType_of_resolve hm
    · exact Node.isSome_vectorType_of_resolveContainer (toOption_eq_some_iff.mp hm)
  exact htyped.forall_nodes (fun _ _ hm (_ : True) ↦ hm) fun _ _ ↦ trivial

theorem isSome_vectorType_of_align {dispatch : Dispatch} {c c' : Call}
    (h : (c.align dispatch).result? = some c')
    (hc : ∀ v ∈ c.roots, ∀ n ∈ v.nodes, n.vectorType?.isSome) :
    ∀ v ∈ c'.roots, ∀ n ∈ v.nodes, n.vectorType?.isSome := by
  have haltered := c.altered_align dispatch
  rw [Progress.state_of_result? h] at haltered
  have hrelated := haltered.related_roots (R := fun n m ↦ m.vectorType? = n.vectorType?)
    (fun _ _ _ hnm ↦ hnm.vectorType?_eq) fun n m hnm ↦ by rw [hnm]
  exact Variable.forall_nodes_of_related hrelated (fun n m hnm hn ↦ hnm ▸ hn) hc

/-- What has been decided of a call that is resolved and aligned. -/
structure Complete (c : Call) : Prop where
  typed : ∀ v ∈ c.roots, ∀ n ∈ v.nodes, n.vectorType?.isSome
  mapped : ∀ n ∈ c.leaves, n.mapping.isResolved

theorem complete_of_align {dispatch : Dispatch} {c c' c'' : Call}
    (hresolve : c.resolve.result? = some c') (halign : (c'.align dispatch).result? = some c'') :
    c''.Complete where
  typed := isSome_vectorType_of_align halign (isSome_vectorType_of_resolve hresolve)
  mapped m hm := by
    obtain ⟨n, -, hnm⟩ := exists_of_forall₂_right (leaves_of_align halign) hm
    exact hnm.resolved

/-- A complete call has no types left to find. -/
theorem Complete.hasImplicitTypes {c : Call} (h : c.Complete) : c.hasImplicitTypes = false := by
  rw [Call.hasImplicitTypes, List.any_eq_false]
  intro v hv
  have hnode : v.node ∈ v.nodes := Variable.node_mem_nodes v.self_mem_parts
  have htyped := h.typed v (List.mem_append_left _ hv) v.node hnode
  rw [Option.isNone_iff_eq_none]
  intro hnone
  rw [hnone] at htyped
  cases htyped

/-- A complete call seems to have a mapping left to find if one of its positional variables is a
dictionary. -/
theorem Complete.hasImplicitMappings_iff {start c : Call} (h : c.Complete)
    (hreached : start.Reached c) : c.hasImplicitMappings ↔ ∃ v ∈ c.args, v.isLeaf = false := by
  rw [Call.hasImplicitMappings, List.any_eq_true]
  refine exists_congr fun v ↦ and_congr_right fun hv ↦ ?_
  have hroot : v ∈ c.roots := List.mem_append_left _ hv
  cases v with
  | leaf n =>
    have hmapped := h.mapped n (List.mem_flatMap.mpr ⟨.leaf n, hroot, List.mem_singleton_self n⟩)
    rw [Variable.node_leaf, hmapped]
    exact iff_of_false nofun nofun
  | dict n fs =>
    have hmapping := hreached.container _ hroot n fs (Variable.self_mem_parts _)
    rw [Variable.node_dict, hmapping]
    exact iff_of_true rfl rfl

/-- Which positional variables are dictionaries shows in the arguments. -/
theorem Reached.exists_dict_iff {registry : MarshallRegistry} {a : Arguments} {start c : Call}
    (hstart : ofArguments registry a = .ok start) (h : start.Reached c) :
    (∃ v ∈ c.args, v.isLeaf = false) ↔ ∃ x ∈ a.args, x.kind = .dict := by
  have hvalues := mapM_eq_some_iff.mp (ofArguments_eq_ok hstart).1
  have hskeletons : c.args.map Variable.skeleton = start.args.map Variable.skeleton :=
    congrArg Prod.fst h.skeleton
  rw [← List.forall₂_eq_eq_eq, List.forall₂_map_left_iff, List.forall₂_map_right_iff] at hskeletons
  constructor
  · rintro ⟨v, hv, hdict⟩
    obtain ⟨w, hw, hvw⟩ := exists_of_forall₂_left hskeletons hv
    obtain ⟨x, hx, hxw⟩ := exists_of_forall₂_right hvalues hw
    rw [Variable.isLeaf_eq_of_skeleton_eq hvw] at hdict
    exact ⟨x, hx, (Variable.isLeaf_of_ofValue (toOption_eq_some_iff.mp hxw)).mp hdict⟩
  · rintro ⟨x, hx, hdict⟩
    obtain ⟨w, hw, hxw⟩ := exists_of_forall₂_left hvalues hx
    obtain ⟨v, hv, hvw⟩ := exists_of_forall₂_right hskeletons hw
    refine ⟨v, hv, ?_⟩
    rw [Variable.isLeaf_eq_of_skeleton_eq hvw]
    exact (Variable.isLeaf_of_ofValue (toOption_eq_some_iff.mp hxw)).mpr hdict

/-- **What is left once a call is resolved and aligned.** Take any call that comes of some
arguments by passes in any order, bound to whatever function and overridden as you like, and let
it be resolved and then aligned. Then every node has a type and every leaf a mapping. The call
does not say that a type is missing. It says that a mapping is missing if and only if one of the
arguments by position is a dictionary. -/
theorem hasImplicitMappings_iff_of_align {registry : MarshallRegistry} {a : Arguments}
    {start c c' : Call} (hstart : ofArguments registry a = .ok start) (ps : List Pass)
    {dispatch : Dispatch} (hresolve : (start.after ps).resolve.result? = some c)
    (halign : (c.align dispatch).result? = some c') :
    c'.Complete ∧ c'.hasImplicitTypes = false ∧
      (c'.hasImplicitMappings ↔ ∃ x ∈ a.args, x.kind = .dict) := by
  have hcomplete := complete_of_align hresolve halign
  have hreached : start.Reached c' := by
    have hleave := (((reached_start hstart).after ps).leave .resolve).leave (.align dispatch)
    rwa [Pass.leave, Pass.run, Pass.leave, Pass.run, Progress.state_of_result? hresolve,
      Progress.state_of_result? halign] at hleave
  refine ⟨hcomplete, hcomplete.hasImplicitTypes, ?_⟩
  rw [hcomplete.hasImplicitMappings_iff hreached, hreached.exists_dict_iff hstart]

/-- A kernel that takes a point. -/
def norm : Function where
  name := "norm"
  params := [{
    name := "p"
    type := .struct "Point" [("x", .scalar .float), ("y", .scalar .float)] true }]

/-- A point whose coordinates are a row of numbers and a number. -/
def pointOfRow : Arguments where
  args := [.dict [("x", .buffer { element := .scalar .float, extents := [8] }), ("y", .int 1)]]

/-- The point of a row is resolved and aligned. -/
theorem hasImplicitMappings_iff_pointOfRow : ∃ start c c',
    ofArguments .builtin pointOfRow = .ok start ∧
      (start.after [.bind norm]).resolve.result? = some c ∧
        (c.align { rank := 1 }).result? = some c' ∧ c'.Complete ∧ c'.hasImplicitTypes = false ∧
          (c'.hasImplicitMappings ↔ ∃ x ∈ pointOfRow.args, x.kind = .dict) :=
  ⟨_, _, _, rfl, rfl, rfl,
    @hasImplicitMappings_iff_of_align .builtin pointOfRow _ _ _ rfl [.bind norm] { rank := 1 } rfl
      rfl⟩

/-- **A complete call that says it is not.** The point of a row is bound, resolved and aligned,
both of its coordinates are mapped, and still a mapping seems to be missing. -/
theorem exists_complete_hasImplicitMappings : ∃ start bound c c',
    ofArguments .builtin pointOfRow = .ok start ∧ (start.bind norm).result? = some bound ∧
      bound.resolve.result? = some c ∧ (c.align { rank := c.gridRank }).result? = some c' ∧
        (∀ n ∈ c'.leaves, n.mapping.isResolved) ∧ c'.hasImplicitMappings = true :=
  ⟨_, _, _, _, rfl, rfl, rfl, rfl, by decide, rfl⟩

end Call

end KernelCall
