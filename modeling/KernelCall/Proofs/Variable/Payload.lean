import KernelCall.Proofs.Call.Arguments
import KernelCall.Proofs.Call.Fitting
import KernelCall.Proofs.Marshall.Payload
import KernelCall.Proofs.Raises
import KernelCall.Proofs.Variable.Image

/-!
# Passes and payload

The variable of a value keeps the payload in its marshalls, and every pass over variables asks a
marshall only what does not depend on it. So each pass does to a variable without payload what it
does to the variable, and stops with the same error if it stops. The one error that shows payload is
that of a texture whose extents do not match its dimensions, which is found before there is a
variable.
-/

namespace KernelCall

/-! ## Nodes -/

namespace Node

/-- The node without the payload of its marshall; everything else stays. -/
def erase (n : Node) : Node := { n with marshall := n.marshall.erase }

variable (n : Node)

@[simp] theorem name_erase : n.erase.name = n.name := rfl

@[simp] theorem path_erase : n.erase.path = n.path := rfl

@[simp] theorem marshall_erase : n.erase.marshall = n.marshall.erase := rfl

@[simp] theorem paramIndex?_erase : n.erase.paramIndex? = n.paramIndex? := rfl

@[simp] theorem mapping_erase : n.erase.mapping = n.mapping := rfl

@[simp] theorem pin?_erase : n.erase.pin? = n.pin? := rfl

@[simp] theorem differentiable_erase : n.erase.differentiable = n.differentiable := rfl

@[simp] theorem access_erase : n.erase.access = n.access := rfl

@[simp] theorem direction_erase : n.erase.direction = n.direction := rfl

@[simp] theorem noDiff_erase : n.erase.noDiff = n.noDiff := rfl

@[simp] theorem vectorType_erase : n.erase.vectorType = n.vectorType := rfl

@[simp] theorem receivedType_erase : n.erase.receivedType = n.receivedType := rfl

@[simp] theorem accessedSlots_erase : n.erase.accessedSlots = n.accessedSlots := rfl

/-- What passes want to know of a marshall is no matter of its payload. -/
theorem transparent_erase : Transparent Marshall.erase id where
  reduce m count := by rw [Marshall.reduce_erase]
  resolve m bound := by rw [Marshall.resolve_erase]
  dimensionality m t := by rw [Marshall.dimensionality_erase]
  type _ := rfl

theorem erase_eq_image : erase = image Marshall.erase id := by
  funext n
  rw [erase, image, Option.map_id, id]

theorem differentiate_erase (mode : CallMode) :
    n.erase.differentiate mode = (n.differentiate mode).map erase := by
  simp only [differentiate, vectorType_erase, noDiff_erase, marshall_erase,
    Marshall.hasDerivative_erase, direction_erase]
  exact bind_image fun _ ↦ rfl

theorem callData_erase : n.erase.callData = n.callData := by
  have hbuffer : ∀ b : BufferValue, Storage.ofBuffer b.erase = Storage.ofBuffer b := by
    intro b
    funext access
    cases access <;> simp [Storage.ofBuffer, BufferValue.erase]
  rw [callData, callData, marshall_erase]
  cases hm : n.marshall with
  | buffer b =>
    change (if n.access.derivative != .none then
        .error (.noGradientStorage (Marshall.buffer b).erase.typeName)
      else .ok (.single (.ofBuffer b.erase
        (if n.access.primal = .none then .read else n.access.primal))) :
      Except MarshallError CallData) = _
    rw [hbuffer, Marshall.typeName_erase]
  | diffBuffer b needsGrad =>
    simp only [Marshall.erase, hbuffer, access_erase, receivedType_erase]
  | texture t =>
    simp only [Marshall.erase, TextureValue.erase, length_eraseExtents, access_erase]
  | _ => rfl

end Node

/-! ## Variables -/

namespace Variable

mutual

/-- The variable without the payload of its marshalls. -/
def erase : Variable → Variable
  | leaf n => leaf n.erase
  | dict n fs => dict n.erase (eraseFields fs)

def eraseFields : List Variable → List Variable
  | [] => []
  | v :: vs => v.erase :: eraseFields vs

end

theorem eraseFields_eq_map (vs : List Variable) : eraseFields vs = vs.map erase := by
  induction vs with
  | nil => rfl
  | cons v vs ih => rw [eraseFields, ih, List.map_cons]

@[simp] theorem erase_leaf (n : Node) : (leaf n).erase = leaf n.erase := rfl

@[simp] theorem erase_dict (n : Node) (fs : List Variable) :
    (dict n fs).erase = dict n.erase (fs.map erase) := by
  rw [erase, eraseFields_eq_map]

@[simp] theorem node_erase (v : Variable) : v.erase.node = v.node.erase := by
  cases v <;> rfl

@[simp] theorem name_erase (v : Variable) : v.erase.name = v.name := by
  cases v <;> rfl

theorem erase_eq_mapNodes : erase = mapNodes (Node.image Marshall.erase id) := by
  funext v
  induction v with
  | leaf n => rw [erase_leaf, mapNodes_leaf, Node.erase_eq_image]
  | dict n fs ih => rw [erase_dict, mapNodes_dict, Node.erase_eq_image, List.map_congr_left ih]

theorem mapNode_erase {g : Node → Node} (hg : ∀ n, (g n).erase = g n.erase) (v : Variable) :
    (v.mapNode g).erase = v.erase.mapNode g := by
  cases v with
  | leaf n => simp [mapNode, hg]
  | dict n fs => simp [mapNode, hg]

/-! ### Binding -/

theorem bindTo_erase (path : String) (target : Target) (v : Variable) :
    v.erase.bindTo path target = (v.bindTo path target).map erase := by
  induction v generalizing path target with
  | leaf n => rfl
  | dict n fs ih =>
    have hfields : bindFields path target (fs.map erase) =
        (bindFields path target fs).map (List.map erase) := by
      induction fs with
      | nil => rfl
      | cons v vs ihs =>
        rw [List.forall_mem_cons] at ih
        rw [List.map_cons, bindFields, bindFields, name_erase]
        cases target.type.field? v.name with
        | none => rfl
        | some type =>
          refine Progress.andThen_image (ih.1 _ _) (fun _ ↦ rfl) fun w ↦ ?_
          rw [ihs ih.2, Progress.map_map, Progress.map_map]
          rfl
    rw [erase_dict, bindTo, bindTo]
    refine Progress.andThen_image hfields (fun gs ↦ ?_) fun gs ↦ ?_
    · rw [erase_dict]
      rfl
    · rw [Progress.done, Progress.done, Progress.map, erase_dict]
      rfl

theorem bindRoot_erase (v : Variable) (name : String) (target : Target) (index? : Option Nat) :
    v.erase.bindRoot name target index? = (v.bindRoot name target index?).map erase := by
  have hroot := mapNode_erase
    (g := fun n ↦ { n with name := v.rootName name, paramIndex? := index? }) (fun _ ↦ rfl) v
  rw [bindRoot, bindRoot, name_erase, ← bindTo_erase]
  exact congrArg (bindTo _ target) hroot.symm

/-! ### Passes -/

theorem vectorize_erase (lookup : Lookup) (o : Override) (v : Variable) :
    v.erase.vectorize lookup o = (v.vectorize lookup o).map erase := by
  rw [erase_eq_mapNodes]
  exact vectorize_image Node.transparent_erase lookup o v

theorem resolve_erase (v : Variable) : v.erase.resolve = v.resolve.map erase := by
  rw [erase_eq_mapNodes]
  exact resolve_image Node.transparent_erase v

theorem align_erase (dispatch : Dispatch) (v : Variable) :
    v.erase.align dispatch = (v.align dispatch).map erase := by
  rw [erase_eq_mapNodes]
  exact align_image Marshall.erase id dispatch v

theorem differentiate_erase (mode : CallMode) (v : Variable) :
    v.erase.differentiate mode = (v.differentiate mode).map erase := by
  induction v with
  | leaf n =>
    rw [erase_leaf, differentiate, differentiate,
      Progress.ofExcept_image (n.differentiate_erase mode), Progress.map_map, Progress.map_map]
    rfl
  | dict n fs ih =>
    rw [erase_dict, differentiate, differentiate, differentiateFields_eq_traverse,
      Progress.traverse_image ih]
    refine Progress.andThen_image (Progress.ofExcept_image (n.differentiate_erase mode))
      (fun m ↦ (erase_dict m fs).symm) fun m ↦ ?_
    rw [differentiateFields_eq_traverse, Progress.map_map, Progress.map_map]
    exact congrArg (Progress.map · _) (funext fun gs ↦ (erase_dict m gs).symm)

/-! ### Code and signature -/

theorem leafCommands_erase (isRoot : Bool) (n : Node) :
    n.erase.leafCommands isRoot = n.leafCommands isRoot := by
  simp only [Node.leafCommands, Node.access_erase, Node.marshall_erase, Marshall.isWritable_erase,
    Marshall.typeName_erase, Node.callData_erase, Node.name_erase, Node.path_erase,
    Node.mapping_erase]

theorem fieldAccessors_erase (t : KernelType) (fs : List Variable) :
    fieldAccessors t (fs.map erase) = fieldAccessors t fs := by
  funext slot
  have hload : ∀ v : Variable, loadField slot v.erase = loadField slot v := fun v ↦ by
    simp only [loadField, node_erase, Node.vectorType_erase, name_erase]
  have hstore : ∀ v : Variable, storeField slot v.erase = storeField slot v := fun v ↦ by
    simp only [storeField, name_erase]
  simp only [fieldAccessors, List.mapM_map, List.map_map, Function.comp_def, hload, hstore]

theorem typeCommands_erase (gridRank : Nat) (isRoot : Bool) (v : Variable) :
    v.erase.typeCommands gridRank isRoot = v.typeCommands gridRank isRoot := by
  induction v generalizing isRoot with
  | leaf n => exact leafCommands_erase isRoot n
  | dict n fs ih =>
    have hfields : fieldTypeCommands gridRank (fs.map erase) = fieldTypeCommands gridRank fs := by
      induction fs with
      | nil => rfl
      | cons v vs ihs =>
        rw [List.forall_mem_cons] at ih
        rw [List.map_cons, fieldTypeCommands, fieldTypeCommands, ih.1, ihs ih.2]
    have hdeclare : (fs.map erase).map (fieldDeclaration ·.name) =
        fs.map (fieldDeclaration ·.name) := by
      simp [Function.comp_def]
    simp only [erase_dict, typeCommands, hfields, hdeclare, fieldAccessors_erase,
      Node.vectorType_erase, Node.accessedSlots_erase, Node.name_erase]

theorem formal_erase (v : Variable) : v.erase.formal = v.formal := by
  simp only [formal, node_erase, Node.vectorType_erase, Node.noDiff_erase,
    Node.differentiable_erase, Node.direction_erase, name_erase]

theorem signature_erase (v : Variable) : v.erase.signature = v.signature := by
  have hnode : ∀ n : Node, n.erase.signature = n.signature := fun n ↦ by
    simp only [Node.signature, Node.path_erase, Node.marshall_erase, Marshall.typeName_erase,
      Node.pin?_erase]
  induction v with
  | leaf n => exact hnode n
  | dict n fs ih =>
    have hfields : fieldsSignature (fs.map erase) = fieldsSignature fs := by
      induction fs with
      | nil => rfl
      | cons v vs ihs =>
        rw [List.forall_mem_cons] at ih
        cases vs with
        | nil => exact ih.1
        | cons w vs =>
          change v.erase.signature ++ ";" ++ fieldsSignature ((w :: vs).map erase) =
            v.signature ++ ";" ++ fieldsSignature (w :: vs)
          rw [ih.1, ihs ih.2]
    rw [erase_dict, signature, signature, hfields, hnode]

/-! ### Variables of values -/

theorem carry_erase (path : String) (h : HostValue) :
    SameOutcome (fun m m' ↦ m' = m.erase) (MarshallRegistry.builtin.carry path h)
      (MarshallRegistry.builtin.carry path h.erase) := by
  have hvalue := MarshallRegistry.forValue_erase h
  rw [MarshallRegistry.carry, MarshallRegistry.carry]
  cases hm : MarshallRegistry.builtin.forValue h with
  | ok m =>
    rw [hm] at hvalue
    rw [toOption_eq_some_iff.mp hvalue]
    exact .ok rfl
  | error e =>
    cases hm' : MarshallRegistry.builtin.forValue h.erase with
    | ok m' =>
      rw [hm, hm'] at hvalue
      cases hvalue
    | error e' => exact .error rfl rfl

theorem ofValue_erase (path name : String) (h : HostValue) :
    SameOutcome (fun v w ↦ w = v.erase) (ofValue .builtin path name h)
      (ofValue .builtin path name h.erase) := by
  induction h using HostValue.entrywise generalizing path name with
  | plain h hkind =>
    rw [ofValue_of_not_dict _ _ _ hkind,
      ofValue_of_not_dict _ _ _ (h.kind_erase ▸ hkind : h.erase.kind ≠ .dict)]
    refine (carry_erase path h).bind fun m _ hm ↦ .ok ?_
    rw [hm]
    rfl
  | dict entries ih =>
    -- keys stay, so an entry repeats one without payload if it does with it
    have hfields : ∀ seen, SameOutcome (fun vs ws ↦ ws = vs.map erase)
        (ofEntries .builtin path seen entries)
        (ofEntries .builtin path seen (HostValue.eraseEntries entries)) := by
      induction entries with
      | nil => exact fun seen ↦ .ok rfl
      | cons e entries ihs =>
        obtain ⟨key, value⟩ := e
        rw [List.forall_mem_cons] at ih
        intro seen
        rw [HostValue.eraseEntries, ofEntries, ofEntries]
        by_cases hseen : seen.contains key
        · rw [if_pos hseen, if_pos hseen]
          exact .error rfl rfl
        rw [if_neg hseen, if_neg hseen]
        refine (ih.1 _ key).bind fun v _ hv ↦ (ihs ih.2 _).bind fun vs _ hvs ↦ .ok ?_
        rw [hv, hvs, List.map_cons]
    rw [HostValue.erase, ofValue, ofValue]
    refine (carry_erase path (.dict entries)).bind fun m _ hm ↦
      (hfields []).bind fun vs _ hvs ↦ .ok ?_
    rw [hm, hvs, erase_dict]
    rfl

end Variable

end KernelCall
