import KernelCall.Proofs.Call.Frame
import KernelCall.Proofs.Call.Image
import KernelCall.Proofs.Call.Mode

/-!
# Forbidding derivatives

A parameter that carries `no_diff` is not differentiated with respect to. Adding the modifier to a
parameter changes what the variables bound to it are asked for in backward evaluation, and it is
meant to change nothing else.

The modifiers of a parameter are copied to every node below the variable that is bound to it, so the
two calls differ in the targets of one variable, and overriding, resolving and aligning look at the
types of targets only. Deciding on derivatives is the first pass to see the difference. There it
matters that the primal is accessed in the same way whether a variable is differentiable or not: on
that depend the storage of primals and the one reason to refuse to write code.
-/

namespace KernelCall

/-! ## Functions -/

/-- The parameter with derivatives forbidden. -/
def Parameter.forbid (p : Parameter) : Parameter :=
  { p with modifiers := p.modifiers.insert .noDiff }

def Target.forbid (t : Target) : Target := { t with modifiers := t.modifiers.insert .noDiff }

theorem Target.type_forbid (t : Target) : t.forbid.type = t.type := rfl

namespace Function

/-- The function with derivatives with respect to its parameter at position `i` forbidden. -/
def forbid (i : Nat) (f : Function) : Function :=
  { f with params := f.params.modify i Parameter.forbid }

variable (i : Nat) (f : Function)

theorem getElem?_params_forbid (j : Nat) : (f.forbid i).params[j]? =
    f.params[j]?.map fun p ↦ if j = i then p.forbid else p := by
  rw [forbid, List.getElem?_modify]
  simp only [eq_comm (a := j)]
  rfl

theorem zipIdx_params_forbid : (f.forbid i).params.zipIdx =
    f.params.zipIdx.map fun (p, j) ↦ (if j = i then p.forbid else p, j) := by
  refine List.ext_getElem? fun j ↦ ?_
  rw [List.getElem?_map, List.getElem?_zipIdx, List.getElem?_zipIdx, getElem?_params_forbid,
    Option.map_map, Option.map_map]
  refine Option.map_congr fun p _ ↦ ?_
  simp

theorem names_forbid : (f.forbid i).params.map (·.name) = f.params.map (·.name) := by
  refine List.ext_getElem? fun j ↦ ?_
  rw [List.getElem?_map, List.getElem?_map, getElem?_params_forbid, Option.map_map]
  refine Option.map_congr fun p _ ↦ ?_
  rw [Function.comp_apply]
  split <;> rfl

theorem paramIndex?_forbid (name : String) : (f.forbid i).paramIndex? name = f.paramIndex? name := by
  have hnames : ∀ ps : List Parameter, ps.findIdx? (·.name == name) =
      (ps.map (·.name)).findIdx? (· == name) := fun ps ↦ by
    rw [List.findIdx?_map]
    rfl
  rw [paramIndex?, paramIndex?, hnames, names_forbid, ← hnames]

end Function

/-- What a seat asks for if derivatives with respect to the parameter at position `i` are
forbidden. -/
def Target.forbidAt (i : Nat) (index? : Option Nat) (t : Target) : Target :=
  if index? = some i then t.forbid else t

theorem Function.param?_forbid (i : Nat) (f : Function) (name : String) :
    (f.forbid i).param? name =
      (f.param? name).map fun (j, p) ↦ (j, if j = i then p.forbid else p) := by
  rw [param?, param?, paramIndex?_forbid]
  cases f.paramIndex? name with
  | none => rfl
  | some j =>
    change ((f.forbid i).params[j]? >>= _) = Option.map _ (f.params[j]? >>= _)
    rw [getElem?_params_forbid]
    cases f.params[j]? <;> rfl

theorem Function.seat?_forbid (i : Nat) (f : Function) (keyword : String) :
    (f.forbid i).seat? keyword =
      (f.seat? keyword).map fun (target, index?) ↦ (target.forbidAt i index?, index?) := by
  rw [seat?, seat?, param?_forbid]
  -- neither the receiver nor the returned value is a parameter
  split
  · rw [Option.map_map]
    rfl
  split
  · rw [Option.map_map]
    rfl
  rw [Option.map_map, Option.map_map]
  refine Option.map_congr fun e _ ↦ ?_
  obtain ⟨j, p⟩ := e
  by_cases hj : j = i
  · simp [Target.forbidAt, hj, Parameter.forbid, Target.forbid]
  · simp [Target.forbidAt, hj]

/-! ## Nodes -/

theorem CallMode.access_primal_congr (mode : CallMode) (differentiable differentiable' : Bool)
    (d : Direction) :
    (mode.access differentiable d).primal = (mode.access differentiable' d).primal := by
  cases mode <;> cases differentiable <;> cases differentiable' <;> cases d <;> rfl

namespace Node

/-- The node with derivatives forbidden by what it is bound to. -/
def forbid : Node → Node := image id Target.forbid

theorem transparent_forbid : Transparent id Target.forbid where
  reduce _ _ := rfl
  resolve _ _ := rfl
  dimensionality _ _ := rfl
  type _ := rfl

theorem direction_forbid (n : Node) : n.forbid.direction = n.direction := by
  rw [direction, direction, forbid, image]
  cases n.target? with
  | none => rfl
  | some t => rfl

/-- The nodes are the same but for derivatives. -/
structure SameButDerivative (n m : Node) : Prop where
  name : m.name = n.name
  path : m.path = n.path
  marshall : m.marshall = n.marshall
  index : m.paramIndex? = n.paramIndex?
  vectorType : m.vectorType? = n.vectorType?
  mapping : m.mapping = n.mapping
  pin : m.pin? = n.pin?
  dimensionality : m.dimensionality? = n.dimensionality?
  direction : m.direction = n.direction
  primal : m.access.primal = n.access.primal

theorem SameButDerivative.refl (n : Node) : n.SameButDerivative n :=
  ⟨rfl, rfl, rfl, rfl, rfl, rfl, rfl, rfl, rfl, rfl⟩

theorem SameButDerivative.sameText {n m : Node} (h : n.SameButDerivative m) : n.SameText m :=
  ⟨h.path.symm, congrArg Marshall.typeName h.marshall.symm,
    congrArg (Option.map Pin.text) h.pin.symm⟩

/-- How the primal is accessed does not depend on whether there are derivatives. -/
theorem sameButDerivative_of_differentiate {mode : CallMode} {n m m' : Node}
    (h : n.differentiate mode = .ok m) (h' : n.forbid.differentiate mode = .ok m') :
    m.SameButDerivative m' := by
  obtain ⟨hgranted, differentiable, access, hm⟩ := differentiate_eq_ok h
  obtain ⟨hgranted', differentiable', access', hm'⟩ := differentiate_eq_ok h'
  have hdirection : m'.direction = m.direction := by
    rw [hm, hm']
    exact n.direction_forbid
  have hprimal : m'.access.primal = m.access.primal := by
    rw [hgranted.access, hgranted'.access, hdirection]
    exact CallMode.access_primal_congr mode _ _ m.direction
  subst hm hm'
  exact ⟨rfl, rfl, rfl, rfl, rfl, rfl, rfl, rfl, hdirection, hprimal⟩

/-- Where no derivative is wanted there is none. -/
theorem Granted.withheld {mode : CallMode} {n : Node} (h : n.Granted mode)
    (hnoDiff : n.noDiff = true) : n.differentiable = false ∧ n.access.derivative = .none := by
  obtain ⟨t, -, hdiff⟩ := h.differentiable
  rw [hnoDiff] at hdiff
  exact ⟨hdiff, h.derivative_eq_none hdiff⟩

end Node

/-! ## Binding -/

namespace Variable

/-- Changes every node of a variable that is bound to the parameter at position `i`. -/
def atParam (i : Nat) (g : Node → Node) (v : Variable) : Variable :=
  if v.node.paramIndex? = some i then v.mapNodes g else v

theorem toExcept_bindTo_forbid (path : String) (target : Target) (v : Variable) :
    (v.bindTo path target.forbid).toExcept =
      (v.bindTo path target).toExcept.map (mapNodes Node.forbid) := by
  induction v generalizing path target with
  | leaf n => rfl
  | dict n fs ih =>
    have hfields : (bindFields path target.forbid fs).toExcept =
        (bindFields path target fs).toExcept.map (List.map (mapNodes Node.forbid)) := by
      induction fs with
      | nil => rfl
      | cons v vs ihs =>
        rw [List.forall_mem_cons] at ih
        rw [bindFields, bindFields, Target.type_forbid]
        cases target.type.field? v.name with
        | none => rfl
        | some type =>
          rw [Progress.toExcept_andThen, Progress.toExcept_andThen]
          refine (congrArg (· >>= _) (ih.1 _ { target with type })).trans ?_
          refine map_bind_image fun w _ ↦ ?_
          rw [Progress.toExcept_map, Progress.toExcept_map, ihs ih.2]
          cases (bindFields path target vs).toExcept <;> rfl
    rw [bindTo, bindTo, Progress.toExcept_andThen, Progress.toExcept_andThen, hfields]
    refine map_bind_image fun gs _ ↦ congrArg Except.ok ?_
    exact (mapNodes_dict Node.forbid { n with path, target? := some target } gs).symm

/-- A root is bound to its seat as before, and all its nodes take on what the parameter forbids. -/
theorem toExcept_bindRoot_forbid (i : Nat) (name : String) (target : Target)
    (index? : Option Nat) (v : Variable) :
    (v.bindRoot name (target.forbidAt i index?) index?).toExcept =
      (v.bindRoot name target index?).toExcept.map (atParam i Node.forbid) := by
  have hindex : ∀ w, (v.bindRoot name target index?).toExcept = .ok w →
      w.node.paramIndex? = index? := fun w hw ↦
    (seated_rootName (Progress.result?_eq_some_iff.mpr hw)).1.2.1
  by_cases h : index? = some i
  · rw [Target.forbidAt, if_pos h]
    refine (toExcept_bindTo_forbid _ target _).trans (except_map_congr fun w hw ↦ ?_)
    rw [atParam, if_pos ((hindex w hw).trans h)]
  · rw [Target.forbidAt, if_neg h]
    refine (except_map_self fun w hw ↦ ?_).symm
    rw [atParam, if_neg fun hi ↦ h ((hindex w hw).symm.trans hi)]

end Variable

namespace Call

/-- The call with every node below the parameter at position `i` forbidden derivatives. -/
def forbid (i : Nat) : Call → Call :=
  image (Function.forbid i) (Variable.atParam i Node.forbid)

theorem checkArity_forbid (i : Nat) (f : Function) (c : Call) :
    c.checkArity (f.forbid i) = c.checkArity f := by
  have hkeyword : ∀ filled name,
      checkKeyword (f.forbid i) filled name = checkKeyword f filled name := by
    intro filled name
    rw [checkKeyword, checkKeyword, Function.paramIndex?_forbid]
    rfl
  have hkeywords : ∀ names filled,
      checkKeywords (f.forbid i) filled names = checkKeywords f filled names := by
    intro names
    induction names with
    | nil => exact fun filled ↦ rfl
    | cons name names ih =>
      intro filled
      simp only [checkKeywords, hkeyword, ih]
  have hlength : (f.forbid i).params.length = f.params.length := List.length_modify ..
  rw [checkArity, checkArity, hlength, hkeywords]
  split
  · rfl
  cases checkKeywords f (List.range c.args.length) (c.kwargs.map (·.name)) with
  | error e => rfl
  | ok filled =>
    have hmissing : ((f.forbid i).params.zipIdx.find? fun (_, index) ↦ !filled.contains index) =
        (f.params.zipIdx.find? fun (_, index) ↦ !filled.contains index).map fun (p, j) ↦
          (if j = i then p.forbid else p, j) := by
      rw [Function.zipIdx_params_forbid, List.find?_map]
      rfl
    dsimp only
    rw [hmissing]
    cases f.params.zipIdx.find? fun (_, index) ↦ !filled.contains index with
    | none => rfl
    | some e =>
      obtain ⟨p, j⟩ := e
      change Except.error (Fault.missingArgument (if j = i then p.forbid else p).name f.name).ofCall =
        _
      split <;> rfl

theorem toExcept_bindPositional_forbid (i index : Nat) (vs : List Variable)
    {ps ps' : List Parameter} (hlen : vs.length ≤ ps.length)
    (hps : ∀ j, ps'[j]? = ps[j]?.map fun p ↦ if index + j = i then p.forbid else p) :
    (bindPositional index vs ps').toExcept =
      (bindPositional index vs ps).toExcept.map (List.map (Variable.atParam i Node.forbid)) := by
  induction vs generalizing index ps ps' with
  | nil => cases ps <;> cases ps' <;> rfl
  | cons v vs ih =>
    cases ps with
    | nil => cases hlen
    | cons p ps =>
      cases ps' with
      | nil => cases hps 0
      | cons p' ps' =>
        have hhead : p' = if index = i then p.forbid else p := Option.some.inj (hps 0)
        have hrest : ∀ j, ps'[j]? = ps[j]?.map fun p ↦ if index + 1 + j = i then p.forbid else p := by
          intro j
          have hj := hps (j + 1)
          rwa [← Nat.add_assoc, Nat.add_right_comm] at hj
        have hroot : (v.bindRoot p'.name ⟨p'.type, p'.modifiers⟩ (some index)).toExcept =
            (v.bindRoot p.name ⟨p.type, p.modifiers⟩ (some index)).toExcept.map
              (Variable.atParam i Node.forbid) := by
          rw [← Variable.toExcept_bindRoot_forbid, hhead, Target.forbidAt]
          by_cases hi : index = i
          · rw [if_pos hi, if_pos (congrArg some hi)]
            rfl
          · rw [if_neg hi, if_neg (hi ∘ Option.some.inj)]
        rw [bindPositional, bindPositional, Progress.toExcept_andThen, Progress.toExcept_andThen,
          hroot]
        refine map_bind_image fun w _ ↦ ?_
        rw [Progress.toExcept_map, Progress.toExcept_map, ih (index + 1) (Nat.le_of_succ_le_succ hlen) hrest]
        cases (bindPositional (index + 1) vs ps).toExcept <;> rfl

theorem toExcept_bindKeyword_forbid (i : Nat) (f : Function) {v : Variable}
    (hseat : (f.seat? v.name).isSome) : (bindKeyword (f.forbid i) v).toExcept =
      (bindKeyword f v).toExcept.map (Variable.atParam i Node.forbid) := by
  obtain ⟨⟨target, index?⟩, h⟩ := Option.isSome_iff_exists.mp hseat
  rw [bindKeyword_eq, bindKeyword_eq, Function.seat?_forbid, h]
  exact Variable.toExcept_bindRoot_forbid i v.name target index? v

/-- **A call binds as before**, with the nodes below the parameter forbidden derivatives. -/
theorem toExcept_bind_forbid (i : Nat) (f : Function) (c : Call) :
    (c.bind (f.forbid i)).toExcept = (c.bind f).toExcept.map (forbid i) := by
  rw [bind, bind, checkArity_forbid]
  cases harity : c.checkArity f with
  | error e => rfl
  | ok u =>
    obtain ⟨hlen, hseats⟩ := seats_of_checkArity harity
    have hargs := toExcept_bindPositional_forbid i 0 c.args hlen fun j ↦ by
      rw [Function.getElem?_params_forbid, Nat.zero_add]
    have hkwargs : (Progress.traverse (bindKeyword (f.forbid i)) c.kwargs).toExcept =
        (Progress.traverse (bindKeyword f) c.kwargs).toExcept.map
          (List.map (Variable.atParam i Node.forbid)) :=
      Progress.toExcept_traverse_image fun v hv ↦ toExcept_bindKeyword_forbid i f (hseats v hv)
    dsimp only
    simp only [Progress.toExcept_andThen, hargs, hkwargs]
    refine map_bind_image fun args _ ↦ map_bind_image fun kwargs _ ↦ rfl

end Call

/-! ## Passes that look at types only -/

namespace Variable

@[simp] theorem node_atParam_name (i : Nat) (v : Variable) :
    (v.atParam i Node.forbid).name = v.name := by
  rw [atParam]
  split
  · rw [name, node_mapNodes]
    rfl
  · rfl

/-- What a pass does to every node of a variable it does to those at a parameter, since it leaves the
root at its parameter. -/
theorem atParam_image {i : Nat} {g : Node → Node} {v : Variable} {pass : Variable → Progress Variable}
    (hpass : pass (v.mapNodes g) = (pass v).map (mapNodes g))
    (hindex : (pass v).state.node.paramIndex? = v.node.paramIndex?) :
    pass (v.atParam i g) = (pass v).map (atParam i g) := by
  by_cases h : v.node.paramIndex? = some i
  · rw [atParam, if_pos h, hpass]
    refine Progress.map_congr ?_
    rw [atParam, if_pos (hindex.trans h)]
  · have hself : (pass v).map (atParam i g) = (pass v).map id := by
      refine Progress.map_congr ?_
      rw [atParam, if_neg fun hi ↦ h (hindex.symm.trans hi), id]
    rw [atParam, if_neg h, hself]
    rfl

variable (i : Nat) (v : Variable)

theorem vectorize_atParam (lookup : Lookup) (o : Override) :
    (v.atParam i Node.forbid).vectorize lookup o =
      (v.vectorize lookup o).map (atParam i Node.forbid) := by
  refine atParam_image (vectorize_image Node.transparent_forbid lookup o v) ?_
  have hpinned : ∀ {p : Pin} {n m : Node}, n.pin lookup p = .ok m →
      m.paramIndex? = n.paramIndex? := by
    intro p n m h
    obtain ⟨t, -, rfl⟩ := Node.pin_eq_ok_iff.mp h
    rfl
  refine ((altered_vectorize lookup o v).related (R := fun n m ↦ m.paramIndex? = n.paramIndex?)
    ?_ ?_).node
  · rintro _ n m (rfl | ⟨p, -, hm⟩)
    · rfl
    · exact hpinned hm
  · rintro n m (rfl | ⟨p, -, hm⟩)
    · rfl
    · exact hpinned hm

theorem resolve_atParam :
    (v.atParam i Node.forbid).resolve = v.resolve.map (atParam i Node.forbid) := by
  refine atParam_image (resolve_image Node.transparent_forbid v) ?_
  have hresolved : ∀ n m : Node, n.Resolved m → m.paramIndex? = n.paramIndex? := by
    rintro n m ⟨_, _, rfl⟩
    rfl
  exact (v.altered_resolve.related (fun _ ↦ hresolved) hresolved).node

theorem align_atParam (dispatch : Dispatch) : (v.atParam i Node.forbid).align dispatch =
    (v.align dispatch).map (atParam i Node.forbid) := by
  refine atParam_image (align_image id Target.forbid dispatch v) ?_
  refine ((altered_align dispatch v).related (R := fun n m ↦ m.paramIndex? = n.paramIndex?)
    ?_ ?_).node
  · rintro _ n m (rfl | ⟨-, _, rfl⟩) <;> rfl
  · rintro n m rfl
    rfl

end Variable

namespace Call

/-- **A call is prepared as before.** -/
theorem prepare_forbid (lookup : Lookup) (i : Nat) (f : Function) (a : Arguments)
    (o : Vectorization) :
    prepare lookup (f.forbid i) a o = (prepare lookup f a o).map (forbid i) := by
  rw [prepare, prepare]
  refine bind_image fun c ↦ ?_
  rw [toExcept_bind_forbid]
  refine map_bind_image fun c _ ↦ ?_
  have hvectorize : (c.forbid i).vectorize lookup o = (c.vectorize lookup o).map (forbid i) :=
    vectorize_image (fun o v ↦ v.vectorize_atParam i lookup o) (Variable.node_atParam_name i) c o
  rw [hvectorize, Progress.toExcept_map]
  refine map_bind_image fun c _ ↦ ?_
  have hresolve : (c.forbid i).resolve = c.resolve.map (forbid i) :=
    traverse_image (Variable.resolve_atParam i) c
  rw [hresolve, Progress.toExcept_map]

theorem gridRank_forbid (i : Nat) (c : Call) : (c.forbid i).gridRank = c.gridRank := by
  refine gridRank_image (fun v ↦ ?_) c
  rw [Variable.atParam]
  split
  · rw [Variable.node_mapNodes]
    rfl
  · rfl

theorem align_forbid (i : Nat) (dispatch : Dispatch) (c : Call) :
    (c.forbid i).align dispatch = (c.align dispatch).map (forbid i) :=
  traverse_image (fun v ↦ v.align_atParam i dispatch) c

end Call

/-! ## Deciding on derivatives -/

namespace Variable

theorem BoundTo.noDiff_nodes {v : Variable} {path : String} {target : Target}
    (h : v.BoundTo path target) : ∀ n ∈ v.nodes, n.noDiff = target.modifiers.noDiff := by
  induction v generalizing path target with
  | leaf n =>
    rw [nodes_leaf]
    rintro m hm
    rw [List.mem_singleton.mp hm, Node.noDiff, h.2]
  | dict n fs ih =>
    obtain ⟨⟨-, htarget⟩, hfields⟩ := boundTo_dict_iff.mp h
    rw [nodes_dict, List.forall_mem_cons]
    refine ⟨by rw [Node.noDiff, htarget], fun m hm ↦ ?_⟩
    obtain ⟨f, hf, hm⟩ := List.mem_flatMap.mp hm
    obtain ⟨type, -, hbound⟩ := hfields f hf
    exact ih f hf hbound m hm

theorem sameButDerivative_of_differentiate {i : Nat} {mode : CallMode} {v w w' : Variable}
    (h : (v.differentiate mode).result? = some w)
    (h' : ((v.atParam i Node.forbid).differentiate mode).result? = some w') :
    w.Related Node.SameButDerivative w' ∧ (w.node.paramIndex? ≠ some i → w' = w) := by
  have hindex : w.node.paramIndex? = v.node.paramIndex? := by
    rw [← Progress.state_of_result? h]
    refine ((altered_differentiate mode v).related
      (R := fun n m ↦ m.paramIndex? = n.paramIndex?) ?_ ?_).node
    · rintro _ n m (rfl | ⟨_, _, rfl⟩) <;> rfl
    · rintro n m (rfl | ⟨_, _, rfl⟩) <;> rfl
  rw [hindex]
  by_cases hi : v.node.paramIndex? = some i
  · rw [atParam, if_pos hi, result?_differentiate, walk?_mapNodes] at h'
    rw [result?_differentiate] at h
    have hnode : ∀ n m m' : Node, (n.differentiate mode).toOption = some m →
        (n.forbid.differentiate mode).toOption = some m' → m.SameButDerivative m' :=
      fun n m m' hm hm' ↦ Node.sameButDerivative_of_differentiate (toOption_eq_some_iff.mp hm)
        (toOption_eq_some_iff.mp hm')
    exact ⟨related_of_walks hnode (fun _ _ ↦ hnode) h h', absurd hi⟩
  · rw [atParam, if_neg hi, h] at h'
    cases h'
    exact ⟨related_self fun n _ ↦ Node.SameButDerivative.refl n, fun _ ↦ rfl⟩

/-- A root is refused for the same reason. -/
theorem fault?_of_related {v w : Variable} (h : v.Related Node.SameButDerivative w) :
    w.fault? = v.fault? := by
  cases v with
  | leaf n =>
    obtain ⟨m, rfl, hm⟩ := related_leaf_iff.mp h
    have hblocked : m.Blocked ↔ n.Blocked := by
      rw [Node.Blocked, Node.Blocked, hm.primal, hm.marshall]
    rw [fault?, fault?, Node.writeFault, Node.writeFault, hm.path, hm.marshall]
    exact if_congr hblocked rfl rfl
  | dict n fs =>
    obtain ⟨m, gs, rfl, -⟩ := related_dict_iff.mp h
    rfl

/-- The variables are the same but for derivatives with respect to the parameter at position `i`:
unless a variable is bound to that parameter it is the same, and if it is then nothing in it has a
derivative or is granted access to one. -/
structure SameButDerivativeAt (i : Nat) (v w : Variable) : Prop where
  related : v.Related Node.SameButDerivative w
  elsewhere : v.node.paramIndex? ≠ some i → w = v
  withheld : v.node.paramIndex? = some i →
    ∀ n ∈ w.nodes, n.differentiable = false ∧ n.access.derivative = .none

end Variable

/-- The calls that were built are the same but for derivatives with respect to the parameter at
position `i`. -/
structure BuiltCall.SameButDerivativeAt (i : Nat) (b b' : BuiltCall) : Prop where
  gridRank : b'.gridRank = b.gridRank
  signature : b'.call.signature = b.call.signature
  args : List.Forall₂ (Variable.SameButDerivativeAt i) b.call.args b'.call.args
  kwargs : List.Forall₂ (Variable.SameButDerivativeAt i) b.call.kwargs b'.call.kwargs

namespace Call

theorem forall₂_of_differentiate_forbid {i : Nat} {mode : CallMode} {c c₁ c₂ : Call}
    (h : (c.differentiate mode).result? = some c₁)
    (h' : ((c.forbid i).differentiate mode).result? = some c₂) :
    List.Forall₂ (fun v w ↦ v.Related Node.SameButDerivative w ∧
        (v.node.paramIndex? ≠ some i → w = v)) c₁.args c₂.args ∧
      List.Forall₂ (fun v w ↦ v.Related Node.SameButDerivative w ∧
        (v.node.paramIndex? ≠ some i → w = v)) c₁.kwargs c₂.kwargs := by
  rw [differentiate, result?_traverse] at h h'
  obtain ⟨hargs, hkwargs, -⟩ := withVariables?_eq_some_iff.mp h
  obtain ⟨hargs', hkwargs', -⟩ := withVariables?_eq_some_iff.mp h'
  have hlist : ∀ {vs ws ws' : List Variable},
      (vs.mapM fun v ↦ (v.differentiate mode).result?) = some ws →
      ((vs.map (Variable.atParam i Node.forbid)).mapM fun v ↦ (v.differentiate mode).result?) =
        some ws' →
      List.Forall₂ (fun v w ↦ v.Related Node.SameButDerivative w ∧
        (v.node.paramIndex? ≠ some i → w = v)) ws ws' := by
    intro vs ws ws' hws hws'
    rw [List.mapM_map] at hws'
    exact forall₂_of_common (mapM_eq_some_iff.mp hws) (mapM_eq_some_iff.mp hws')
      fun v _ w w' ↦ Variable.sameButDerivative_of_differentiate
  exact ⟨hlist hargs hargs', hlist hkwargs hkwargs'⟩

/-- **Below the parameter nothing has a derivative.** -/
theorem withheld_of_forbid {i : Nat} {f : Function} {mode : CallMode} {c : Call}
    (hc : c.Bound (f.forbid i)) (hgranted : ∀ v ∈ c.roots, ∀ n ∈ v.nodes, n.Granted mode)
    {v : Variable} (hv : v ∈ c.roots) (hi : v.node.paramIndex? = some i) :
    ∀ n ∈ v.nodes, n.differentiable = false ∧ n.access.derivative = .none := by
  have hseated : ∃ name target, v.BoundTo name target ∧ target.modifiers.noDiff = true := by
    rcases List.mem_append.mp hv with hv | hv
    · obtain ⟨j, hj⟩ := List.mem_iff_getElem?.mp hv
      obtain ⟨p, hp, -, hindex, hbound⟩ := hc.positional j v hj
      obtain rfl : j = i := Option.some.inj (hindex.symm.trans hi)
      rw [Function.getElem?_params_forbid] at hp
      obtain ⟨q, -, rfl⟩ := Option.map_eq_some_iff.mp hp
      refine ⟨_, _, hbound, ?_⟩
      rw [if_pos rfl]
      rfl
    · obtain ⟨target, index?, hseat, -, hindex, hbound⟩ := hc.keyword v hv
      rw [Function.seat?_forbid] at hseat
      obtain ⟨⟨t, k⟩, -, hseat⟩ := Option.map_eq_some_iff.mp hseat
      cases hseat
      refine ⟨_, _, hbound, ?_⟩
      rw [Target.forbidAt, if_pos (hindex.symm.trans hi)]
      rfl
  obtain ⟨name, target, hbound, hforbidden⟩ := hseated
  intro n hn
  exact (hgranted v hv n hn).withheld ((hbound.noDiff_nodes n hn).trans hforbidden)

/-- Calls of which the same roots are refused have code both, or fail with one error. -/
theorem emit_of_faults {f f' : Function} {c c' : Call} (hf : c.function? = some f)
    (h : ∀ v ∈ c.roots, v.Storable) (hf' : c'.function? = some f')
    (h' : ∀ v ∈ c'.roots, v.Storable)
    (hfaults : c.roots.map Variable.fault? = c'.roots.map Variable.fault?) (gridRank : Nat) :
    (∃ e, c.emit gridRank = .error e ∧ c'.emit gridRank = .error e) ∨
      ∃ m m', c.emit gridRank = .ok m ∧ c'.emit gridRank = .ok m' := by
  have hfirst : c'.roots.findSome? Variable.fault? = c.roots.findSome? Variable.fault? := by
    have hid := congrArg (List.findSome? id) hfaults
    rw [List.findSome?_map, List.findSome?_map] at hid
    exact hid.symm
  have hemit := emit_of_fault? hf h gridRank
  have hemit' := emit_of_fault? hf' h' gridRank
  rw [hfirst] at hemit'
  cases hfault : c.roots.findSome? Variable.fault? with
  | some e =>
    rw [hfault] at hemit hemit'
    exact Or.inl ⟨e, hemit, hemit'⟩
  | none =>
    rw [hfault] at hemit hemit'
    obtain ⟨m, hm⟩ := hemit
    obtain ⟨m', hm'⟩ := hemit'
    exact Or.inr ⟨m, m', hm, hm'⟩

/-- **Forbidding derivatives changes derivatives alone.** A build of a function and the build of the
function with derivatives forbidden at the parameter at position `i` fail with the same error or both
go through. If they do, the rank of the dispatch and the signature are the same, variables that are
not bound to the parameter are the same, and in those that are nothing has a derivative, all else
being the same. -/
theorem build_forbid (layout : Layout) (settings : Settings) (f : Function) (a : Arguments)
    (o : Vectorization) (i : Nat) :
    match build ⟨layout, .builtin⟩ settings f a o,
      build ⟨layout, .builtin⟩ settings (f.forbid i) a o with
    | .ok b, .ok b' => b.SameButDerivativeAt i b'
    | .error e, .error e' => e = e'
    | _, _ => False := by
  obtain ⟨mode, strict⟩ := settings
  cases hprepare : prepare ⟨layout, .builtin⟩ f a o with
  | error e =>
    have hprepare' : prepare ⟨layout, .builtin⟩ (f.forbid i) a o = .error e := by
      rw [prepare_forbid, hprepare]
      rfl
    rw [build_of_prepare_error hprepare, build_of_prepare_error hprepare']
  | ok c =>
    have hprepare' : prepare ⟨layout, .builtin⟩ (f.forbid i) a o = .ok (c.forbid i) := by
      rw [prepare_forbid, hprepare]
      rfl
    have haligned : ((c.forbid i).align ⟨(c.forbid i).gridRank, strict⟩).toExcept =
        (c.align ⟨c.gridRank, strict⟩).toExcept.map (forbid i) := by
      rw [gridRank_forbid, align_forbid, Progress.toExcept_map]
    cases halign : (c.align ⟨c.gridRank, strict⟩).toExcept with
    | error e =>
      rw [halign] at haligned
      rw [build_of_align_error hprepare halign, build_of_align_error hprepare' haligned]
    | ok c₁ =>
      rw [halign] at haligned
      have htyped := (typed_of_prepare hprepare).align (Progress.result?_eq_some_iff.mpr halign)
      have htyped' :=
        (typed_of_prepare hprepare').align (Progress.result?_eq_some_iff.mpr haligned)
      obtain ⟨c₂, hc₂, hfunction, -, hstorable⟩ := htyped.differentiate mode
      obtain ⟨c₃, hc₃, hfunction', hgranted', hstorable'⟩ := htyped'.differentiate mode
      have hbuild := build_of_differentiate hprepare halign hc₂
      have hbuild' := build_of_differentiate hprepare' haligned hc₃
      rw [gridRank_forbid] at hbuild'
      obtain ⟨hargs, hkwargs⟩ := forall₂_of_differentiate_forbid hc₂ hc₃
      have hroots := List.rel_append hargs hkwargs
      have hfaults : c₂.roots.map Variable.fault? = c₃.roots.map Variable.fault? :=
        map_eq_of_forall₂ (hroots.imp fun _ _ h ↦ (Variable.fault?_of_related h.1).symm)
      rcases emit_of_faults hfunction hstorable hfunction' hstorable' hfaults c.gridRank with
        ⟨e, he, he'⟩ | ⟨m, m', hm, hm'⟩
      · rw [he] at hbuild
        rw [he'] at hbuild'
        rw [hbuild, hbuild']
        rfl
      · rw [hm] at hbuild
        rw [hm'] at hbuild'
        have hname : c₂.functionName = c₃.functionName := by
          rw [functionName, functionName, hfunction, hfunction']
          rfl
        have hwithheld : ∀ {vs ws : List Variable}, (∀ w ∈ ws, w ∈ c₃.roots) →
            List.Forall₂ (fun v w ↦ v.Related Node.SameButDerivative w ∧
              (v.node.paramIndex? ≠ some i → w = v)) vs ws →
            List.Forall₂ (Variable.SameButDerivativeAt i) vs ws := by
          intro vs ws hws h
          refine forall₂_of_mem h fun v _ w hw hvw ↦ ⟨hvw.1, hvw.2, fun hi ↦ ?_⟩
          exact withheld_of_forbid (bound_of_build hbuild') hgranted' (hws w hw)
            (hvw.1.node.index.trans hi)
        rw [hbuild, hbuild']
        refine ⟨rfl, ?_, ?_, ?_⟩
        · exact (signature_eq_of_related hname (hroots.imp fun _ _ h ↦ h.1.imp fun _ _ ↦
            Node.SameButDerivative.sameText)).symm
        · exact hwithheld (fun w ↦ List.mem_append_left _) hargs
        · exact hwithheld (fun w ↦ List.mem_append_right _) hkwargs

end Call

end KernelCall
