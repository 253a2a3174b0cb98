import KernelCall.Proofs.Call.Passes

/-!
# Images of variables

Two calls are often compared that are the same but for something most passes do not look at: the data
in their values, or the modifiers of a parameter. One is then the image of the other under a change
of every node, and a pass that does not see the change leaves the image of what it leaves of the
other, with the same error.

Of a marshall, overriding, resolving and aligning want to know what is left of its value without some
dimensions, the type it resolves for a parameter, and the dimensions that a type leaves to the
dispatch. Of the target of a node they look at the type. A change that keeps these passes through.
-/

namespace KernelCall

/-! ## Nodes -/

namespace Node

/-- The node with another marshall and bound to another target. -/
def image (onMarshall : Marshall → Marshall) (onTarget : Target → Target) (n : Node) : Node :=
  { n with marshall := onMarshall n.marshall, target? := n.target?.map onTarget }

/-- Marshalls answer as before about dimensions and types, and targets have the same type. -/
structure Transparent (onMarshall : Marshall → Marshall) (onTarget : Target → Target) : Prop where
  reduce : ∀ m count, (onMarshall m).reduce count = m.reduce count
  resolve : ∀ m bound, (onMarshall m).resolve bound = m.resolve bound
  dimensionality : ∀ m t, (onMarshall m).dimensionality t = m.dimensionality t
  type : ∀ target, (onTarget target).type = target.type

section

variable (f : Marshall → Marshall) (t : Target → Target) (n : Node)

@[simp] theorem name_image : (n.image f t).name = n.name := rfl

@[simp] theorem path_image : (n.image f t).path = n.path := rfl

@[simp] theorem marshall_image : (n.image f t).marshall = f n.marshall := rfl

@[simp] theorem paramIndex?_image : (n.image f t).paramIndex? = n.paramIndex? := rfl

@[simp] theorem mapping_image : (n.image f t).mapping = n.mapping := rfl

@[simp] theorem vectorType?_image : (n.image f t).vectorType? = n.vectorType? := rfl

@[simp] theorem pin?_image : (n.image f t).pin? = n.pin? := rfl

@[simp] theorem dimensionality?_image : (n.image f t).dimensionality? = n.dimensionality? := rfl

@[simp] theorem ask_image {α : Type} (answer : Except MarshallError α) :
    (n.image f t).ask answer = n.ask answer := rfl

end

namespace Transparent

variable {f : Marshall → Marshall} {t : Target → Target} (h : Transparent f t)

include h

theorem boundType (n : Node) : (n.image f t).boundType = n.boundType := by
  rw [Node.boundType, Node.boundType, image]
  cases n.target? with
  | none => rfl
  | some target => exact congrArg Except.ok (h.type target)

theorem resolvedType (n : Node) : (n.image f t).resolvedType = n.resolvedType := by
  simp only [Node.resolvedType, h.boundType, marshall_image, h.resolve, ask_image]

theorem pin (lookup : Lookup) (p : Pin) (n : Node) :
    (n.image f t).pin lookup p = (n.pin lookup p).map (image f t) := by
  have htype : p.vectorType lookup (f n.marshall) = p.vectorType lookup n.marshall := by
    cases p with
    | axes l => rw [Pin.vectorType, Pin.vectorType, h.reduce]
    | _ => rfl
  rw [Node.pin, Node.pin, marshall_image, htype]
  cases p.vectorType lookup n.marshall <;> rfl

theorem pinContainer (lookup : Lookup) (entries : List (String × Override)) (n : Node) :
    (n.image f t).pinContainer lookup entries =
      (n.pinContainer lookup entries).map (image f t) := by
  rw [Node.pinContainer, Node.pinContainer]
  split
  · rfl
  · rfl
  · rfl
  · exact h.pin lookup _ n

theorem assignType (n : Node) : (n.image f t).assignType = n.assignType.map (image f t) := by
  simp only [Node.assignType, mapping_image, marshall_image, h.reduce, ask_image, vectorType?_image,
    path_image, h.resolvedType]
  split
  · exact bind_image fun _ ↦ rfl
  split
  · exact bind_image fun _ ↦ rfl
  · rfl

theorem assignDimensionality (n : Node) :
    (n.image f t).assignDimensionality = n.assignDimensionality.map (image f t) := by
  simp only [Node.assignDimensionality, vectorType?_image, h.boundType, mapping_image, ask_image,
    marshall_image, h.dimensionality]
  cases n.mapping.isResolved with
  | true =>
    cases n.vectorType? with
    | some u => rfl
    | none => exact bind_image fun _ ↦ rfl
  | false =>
    have hrank : ∀ u, (n.ask (n.marshall.dimensionality u) >>= fun d ↦
        .ok { n.image f t with vectorType? := some u, dimensionality? := some d }) =
          (n.ask (n.marshall.dimensionality u) >>= fun d ↦
            .ok { n with vectorType? := some u, dimensionality? := some d }).map (image f t) :=
      fun u ↦ bind_image fun _ ↦ rfl
    cases n.vectorType? with
    | some u => exact hrank u
    | none => exact bind_image hrank

theorem resolve_image (n : Node) : (n.image f t).resolve = n.resolve.map (image f t) :=
  Progress.andThen_image (Progress.ofExcept_image (h.assignType n)) (fun _ ↦ rfl)
    fun m ↦ Progress.ofExcept_image (h.assignDimensionality m)

end Transparent

theorem align_of_dimensionality? {n : Node} {d : Nat} (h : n.dimensionality? = some d)
    (dispatch : Dispatch) : n.align dispatch =
      if dispatch.strict && n.pin?.isNone && d != 0 && d != dispatch.rank then
        .error ((Fault.partialRank n.path d dispatch.rank).blame n.path)
      else if n.mapping.isResolved then .ok n
      else match Mapping.trailing? d dispatch.rank with
        | some mapping => .ok { n with mapping }
        | none => .error ((Fault.rankExceedsGrid n.path d dispatch.rank).blame n.path) := by
  cases n
  cases h
  rfl

theorem align_image (f : Marshall → Marshall) (t : Target → Target) (dispatch : Dispatch)
    (n : Node) : (n.image f t).align dispatch = (n.align dispatch).map (image f t) := by
  cases hd : n.dimensionality? with
  | none =>
    rw [align, align, dimensionality?_image, hd]
    rfl
  | some d =>
    rw [align_of_dimensionality? hd, @align_of_dimensionality? (n.image f t) d hd]
    change (if dispatch.strict && n.pin?.isNone && d != 0 && d != dispatch.rank then
        .error ((Fault.partialRank n.path d dispatch.rank).blame n.path)
      else if n.mapping.isResolved then .ok (n.image f t)
      else match Mapping.trailing? d dispatch.rank with
        | some mapping => .ok { n.image f t with mapping }
        | none => .error ((Fault.rankExceedsGrid n.path d dispatch.rank).blame n.path) :
      Except BindError Node) = _
    split_ifs
    · rfl
    · rfl
    · cases Mapping.trailing? d dispatch.rank <;> rfl

end Node

/-! ## Variables -/

namespace Variable

mutual

/-- Changes every node of a variable. -/
def mapNodes (g : Node → Node) : Variable → Variable
  | leaf n => leaf (g n)
  | dict n fs => dict (g n) (mapNodesOf g fs)

def mapNodesOf (g : Node → Node) : List Variable → List Variable
  | [] => []
  | v :: vs => v.mapNodes g :: mapNodesOf g vs

end

theorem mapNodesOf_eq_map (g : Node → Node) (vs : List Variable) :
    mapNodesOf g vs = vs.map (mapNodes g) := by
  induction vs with
  | nil => rfl
  | cons v vs ih => rw [mapNodesOf, ih, List.map_cons]

variable {g : Node → Node}

@[simp] theorem mapNodes_leaf (g : Node → Node) (n : Node) : (leaf n).mapNodes g = leaf (g n) := rfl

@[simp] theorem mapNodes_dict (g : Node → Node) (n : Node) (fs : List Variable) :
    (dict n fs).mapNodes g = dict (g n) (fs.map (mapNodes g)) := by
  rw [mapNodes, mapNodesOf_eq_map]

@[simp] theorem node_mapNodes (g : Node → Node) (v : Variable) :
    (v.mapNodes g).node = g v.node := by
  cases v <;> rfl

theorem map_name_mapNodes (hname : ∀ n, (g n).name = n.name) (vs : List Variable) :
    (vs.map (mapNodes g)).map (·.name) = vs.map (·.name) := by
  rw [List.map_map]
  refine List.map_congr_left fun v _ ↦ ?_
  rw [Function.comp_apply, name, node_mapNodes, hname]

/-! ### Passes -/

section

variable {f : Marshall → Marshall} {t : Target → Target}

theorem vectorize_image (h : Node.Transparent f t) (lookup : Lookup) (o : Override) (v : Variable) :
    (v.mapNodes (Node.image f t)).vectorize lookup o =
      (v.vectorize lookup o).map (mapNodes (Node.image f t)) := by
  induction v generalizing o with
  | leaf n =>
    cases o with
    | fields entries => rfl
    | pin p =>
      rw [mapNodes_leaf, vectorize, vectorize, Progress.ofExcept_image (h.pin lookup p n),
        Progress.map_map, Progress.map_map]
      rfl
  | dict n fs ih =>
    cases o with
    | pin p =>
      rw [mapNodes_dict, vectorize, vectorize]
      simp [Progress.map, Progress.stopped]
    | fields entries =>
      -- fields are found by name, and names stay
      have hnames := map_name_mapNodes (g := Node.image f t) (fun _ ↦ rfl) fs
      have hfields : vectorizeFields lookup entries (fs.map (mapNodes (Node.image f t))) =
          (vectorizeFields lookup entries fs).map (List.map (mapNodes (Node.image f t))) := by
        clear hnames
        induction fs with
        | nil => rfl
        | cons v vs ihs =>
          rw [List.forall_mem_cons] at ih
          rw [List.map_cons, vectorizeFields, vectorizeFields, name, node_mapNodes,
            Node.name_image, ihs ih.2]
          cases Override.entry? entries v.name with
          | none =>
            rw [Progress.map_map]
            rfl
          | some o =>
            refine Progress.andThen_image (ih.1 o) (fun _ ↦ rfl) fun w ↦ ?_
            rw [Progress.map_map, Progress.map_map]
            rfl
      rw [mapNodes_dict, vectorize, vectorize, Override.unknownKey?_congr hnames]
      cases Override.unknownKey? entries fs with
      | some key => simp [Progress.map, Progress.stopped]
      | none =>
        refine Progress.andThen_image hfields (fun gs ↦ (mapNodes_dict _ n gs).symm) fun gs ↦ ?_
        rw [Progress.ofExcept_image (h.pinContainer lookup entries n), Progress.map_map,
          Progress.map_map]
        exact congrArg (Progress.map · _) (funext fun m ↦ (mapNodes_dict _ m gs).symm)

theorem resolveContainer_image (h : Node.Transparent f t) (fs : List Variable) (n : Node) :
    (n.image f t).resolveContainer (fs.map (mapNodes (Node.image f t))) =
      (n.resolveContainer fs).map (Node.image f t) := by
  have hranks : (fs.map (mapNodes (Node.image f t))).filterMap (·.node.dimensionality?) =
      fs.filterMap (·.node.dimensionality?) := by
    rw [List.filterMap_map]
    exact List.filterMap_congr fun v _ ↦ by simp
  simp only [Node.resolveContainer, hranks, Node.vectorType?_image, h.resolvedType]
  cases n.vectorType? with
  | some u => rfl
  | none => exact bind_image fun _ ↦ rfl

theorem resolve_image (h : Node.Transparent f t) (v : Variable) :
    (v.mapNodes (Node.image f t)).resolve = v.resolve.map (mapNodes (Node.image f t)) := by
  induction v with
  | leaf n =>
    rw [mapNodes_leaf, resolve, resolve, h.resolve_image n, Progress.map_map, Progress.map_map]
    rfl
  | dict n fs ih =>
    rw [mapNodes_dict, resolve, resolve, resolveFields_eq_traverse, resolveFields_eq_traverse]
    refine Progress.andThen_image (Progress.traverse_image ih)
      (fun gs ↦ (mapNodes_dict _ n gs).symm) fun gs ↦ ?_
    rw [Progress.ofExcept_image (resolveContainer_image h gs n), Progress.map_map,
      Progress.map_map]
    exact congrArg (Progress.map · _) (funext fun m ↦ (mapNodes_dict _ m gs).symm)

theorem align_image (f : Marshall → Marshall) (t : Target → Target) (dispatch : Dispatch)
    (v : Variable) : (v.mapNodes (Node.image f t)).align dispatch =
      (v.align dispatch).map (mapNodes (Node.image f t)) := by
  induction v with
  | leaf n =>
    rw [mapNodes_leaf, align, align, Progress.ofExcept_image (n.align_image f t dispatch),
      Progress.map_map, Progress.map_map]
    rfl
  | dict n fs ih =>
    rw [mapNodes_dict, align, align, alignFields_eq_traverse, alignFields_eq_traverse,
      Progress.traverse_image ih, Progress.map_map, Progress.map_map]
    exact congrArg (Progress.map · _) (funext fun gs ↦ (mapNodes_dict _ n gs).symm)

end

/-- A walk over a changed variable treats each node as changed. -/
theorem walk?_mapNodes (g : Node → Node) (l : Node → Option Node)
    (d : List Variable → Node → Option Node) (v : Variable) :
    (v.mapNodes g).walk? l d = v.walk? (fun n ↦ l (g n)) fun fs n ↦ d fs (g n) := by
  induction v with
  | leaf n => rfl
  | dict n fs ih =>
    have hfields : (fs.map (mapNodes g)).mapM (walk? l d) =
        fs.mapM (walk? (fun n ↦ l (g n)) fun fs n ↦ d fs (g n)) := by
      rw [List.mapM_map]
      exact mapM_congr ih
    rw [mapNodes_dict, walk?_dict, walk?_dict, hfields]

end Variable

end KernelCall
