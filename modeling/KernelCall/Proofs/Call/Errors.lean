import KernelCall.Call.Build
import KernelCall.Proofs.Call.Bound
import KernelCall.Proofs.Raises

/-!
# The errors of each pass

The categories of errors that the passes of a build raise. Only aligning looks at the rank of the
dispatch, and only emitting at whether a value can be written.
-/

namespace KernelCall

/-! ## Arguments -/

theorem MarshallRegistry.raises_carry (registry : MarshallRegistry) (path : String)
    (v : HostValue) : Raises [.bindingLookup, .marshall] (registry.carry path v) := by
  rw [carry]
  cases registry.forValue v with
  | ok m => exact raises_ok m
  | error e => exact raises_blame (by simp [Fault.kind]) path

namespace Variable

theorem raises_ofEntries (registry : MarshallRegistry) {entries : List (String × HostValue)}
    (h : ∀ e ∈ entries, ∀ path name, Raises [.bindingLookup, .marshall]
      (ofValue registry path name e.2)) (path : String) (seen : List String) :
    Raises [.bindingLookup, .marshall] (ofEntries registry path seen entries) := by
  induction entries generalizing seen with
  | nil => exact raises_ok []
  | cons e entries ih =>
    rw [List.forall_mem_cons] at h
    rw [ofEntries]
    split
    · exact raises_blame (by simp [Fault.kind]) path
    · refine Raises.bind (h.1 _ _) fun v _ ↦ ?_
      exact Raises.bind (ih h.2 _) fun vs _ ↦ raises_ok _

theorem raises_ofValue (registry : MarshallRegistry) (h : HostValue) (path name : String) :
    Raises [.bindingLookup, .marshall] (ofValue registry path name h) := by
  induction h using HostValue.entrywise generalizing path name with
  | plain h hdict =>
    rw [ofValue_of_not_dict registry _ _ hdict]
    exact Raises.bind (registry.raises_carry _ _) fun m _ ↦ raises_ok _
  | dict entries ih =>
    rw [ofValue]
    refine Raises.bind (registry.raises_carry path _) fun m _ ↦ ?_
    exact Raises.bind (raises_ofEntries registry ih path []) fun fs _ ↦ raises_ok _

end Variable

namespace Call

theorem raises_ofKeywords (registry : MarshallRegistry) (seen : List String)
    (kwargs : List (String × HostValue)) :
    Raises [.bindingLookup, .marshall] (ofKeywords registry seen kwargs) := by
  induction kwargs generalizing seen with
  | nil => exact raises_ok []
  | cons e kwargs ih =>
    rw [ofKeywords]
    split
    · exact raises_blame (by simp [Fault.kind]) _
    · refine Raises.bind (Variable.raises_ofValue registry e.2 _ _) fun v _ ↦ ?_
      exact Raises.bind (ih _) fun vs _ ↦ raises_ok _

theorem raises_ofArguments (registry : MarshallRegistry) (a : Arguments) :
    Raises [.bindingLookup, .marshall] (ofArguments registry a) := by
  rw [ofArguments]
  refine Raises.bind (raises_mapM fun v _ ↦ Variable.raises_ofValue registry v "" "") fun args _ ↦ ?_
  exact Raises.bind (raises_ofKeywords registry [] a.kwargs) fun kwargs _ ↦ raises_ok _

end Call

/-! ## Binding -/

namespace Variable

theorem raises_bindTo (path : String) (target : Target) (v : Variable) :
    (v.bindTo path target).Raises [.bindingLookup] := by
  induction v generalizing path target with
  | leaf n => exact Progress.raises_done _
  | dict n fs ih =>
    have hfields : ∀ vs : List Variable, vs ⊆ fs →
        (bindFields path target vs).Raises [.bindingLookup] := by
      intro vs hvs
      induction vs with
      | nil => exact Progress.raises_done _
      | cons v vs ihs =>
        rw [List.cons_subset] at hvs
        rw [bindFields]
        split
        · exact Progress.raises_blame (by simp [Fault.kind]) _ _
        · exact Progress.raises_andThen (ih v hvs.1 _ _) fun w ↦ Progress.raises_map (ihs hvs.2)
    rw [bindTo]
    exact Progress.raises_andThen (hfields fs (List.Subset.refl fs)) fun fs ↦ Progress.raises_done _

theorem raises_bindRoot (v : Variable) (name : String) (target : Target) (index? : Option Nat) :
    (v.bindRoot name target index?).Raises [.bindingLookup] :=
  raises_bindTo _ _ _

end Variable

namespace Call

theorem raises_checkKeyword (f : Function) (filled : List Nat) (name : String) :
    Raises [.bindingLookup] (checkKeyword f filled name) := by
  rw [checkKeyword]
  split
  · split
    · exact raises_blame (by simp [Fault.kind]) name
    · exact raises_ok none
  split
  · split
    · exact raises_blame (by simp [Fault.kind]) name
    · exact raises_ok none
  split
  · exact raises_blame (by simp [Fault.kind]) name
  · split
    · exact raises_blame (by simp [Fault.kind]) name
    · exact raises_ok _

theorem raises_checkKeywords (f : Function) (filled : List Nat) (names : List String) :
    Raises [.bindingLookup] (checkKeywords f filled names) := by
  induction names generalizing filled with
  | nil => exact raises_ok filled
  | cons name names ih =>
    rw [checkKeywords]
    split
    · next e he =>
      rintro _ ⟨⟩
      exact raises_checkKeyword f filled name e he
    · exact ih filled
    · exact ih _

theorem raises_checkArity (c : Call) (f : Function) : Raises [.bindingLookup] (c.checkArity f) := by
  rw [checkArity]
  split
  · exact raises_blame (by simp [Fault.kind]) ""
  split
  · next e he =>
    rintro _ ⟨⟩
    exact raises_checkKeywords f _ _ e he
  split
  · exact raises_blame (by simp [Fault.kind]) ""
  · exact raises_ok ()

theorem raises_bindPositional (index : Nat) (vs : List Variable) (ps : List Parameter) :
    (bindPositional index vs ps).Raises [.bindingLookup] := by
  induction vs generalizing index ps with
  | nil => cases ps <;> exact Progress.raises_done _
  | cons v vs ih =>
    cases ps with
    | nil => exact Progress.raises_done _
    | cons p ps =>
      rw [bindPositional]
      exact Progress.raises_andThen (Variable.raises_bindRoot _ _ _ _) fun w ↦
        Progress.raises_map (ih _ _)

theorem raises_bindKeyword (f : Function) (v : Variable) :
    (bindKeyword f v).Raises [.bindingLookup] := by
  rw [bindKeyword]
  split
  · split
    · exact Variable.raises_bindRoot _ _ _ _
    · exact Progress.raises_done v
  split
  · split
    · exact Variable.raises_bindRoot _ _ _ _
    · exact Progress.raises_done v
  split
  · exact Variable.raises_bindRoot _ _ _ _
  · exact Progress.raises_done v

theorem raises_bind (c : Call) (f : Function) : (c.bind f).Raises [.bindingLookup] := by
  rw [bind]
  split
  · next e he =>
    rintro _ ⟨⟩
    exact raises_checkArity c f e he
  · refine Progress.raises_andThen (raises_bindPositional 0 c.args f.params) fun args ↦ ?_
    refine Progress.raises_andThen (Progress.raises_traverse fun v _ ↦ raises_bindKeyword f v) ?_
    exact fun kwargs ↦ Progress.raises_done _

end Call

/-! ## Overriding -/

theorem Node.raises_pin (lookup : Lookup) (p : Pin) (n : Node) :
    Raises [.malformedOverride] (n.pin lookup p) := by
  rw [pin]
  split
  · exact raises_ok _
  · exact raises_blame (by simp [Fault.kind]) n.path

theorem Node.raises_pinContainer (lookup : Lookup) (entries : List (String × Override)) (n : Node) :
    Raises [.malformedOverride] (n.pinContainer lookup entries) := by
  rw [pinContainer]
  split
  · exact raises_ok n
  · exact raises_blame (by simp [Fault.kind]) n.path
  · exact raises_blame (by simp [Fault.kind]) n.path
  · exact raises_pin lookup _ n

namespace Variable

theorem raises_vectorize (lookup : Lookup) (o : Override) (v : Variable) :
    (v.vectorize lookup o).Raises [.malformedOverride] := by
  induction v generalizing o with
  | leaf n =>
    cases o with
    | fields entries => exact Progress.raises_blame (by simp [Fault.kind]) _ _
    | pin p => exact Progress.raises_map (Progress.raises_ofExcept (n.raises_pin lookup p))
  | dict n fs ih =>
    have hfields : ∀ entries, ∀ vs : List Variable, vs ⊆ fs →
        (vectorizeFields lookup entries vs).Raises [.malformedOverride] := by
      intro entries vs hvs
      induction vs with
      | nil => exact Progress.raises_done _
      | cons v vs ihs =>
        rw [List.cons_subset] at hvs
        rw [vectorizeFields]
        split
        · exact Progress.raises_map (ihs hvs.2)
        · exact Progress.raises_andThen (ih v hvs.1 _) fun w ↦ Progress.raises_map (ihs hvs.2)
    cases o with
    | pin p => exact Progress.raises_blame (by simp [Fault.kind]) _ _
    | fields entries =>
      rw [vectorize]
      split
      · exact Progress.raises_blame (by simp [Fault.kind]) _ _
      · refine Progress.raises_andThen (hfields entries fs (List.Subset.refl fs)) fun fs ↦ ?_
        exact Progress.raises_map (Progress.raises_ofExcept (n.raises_pinContainer lookup entries))

end Variable

namespace Call

theorem raises_checkKeywordOverrides (c : Call) (seen : List String)
    (os : List (String × Override)) : Raises [.overrideArity] (c.checkKeywordOverrides seen os) := by
  induction os generalizing seen with
  | nil => exact raises_ok ()
  | cons e os ih =>
    rw [checkKeywordOverrides]
    split
    · exact raises_blame (by simp [Fault.kind]) _
    split
    · exact raises_blame (by simp [Fault.kind]) _
    · exact ih _

theorem raises_checkOverrides (c : Call) (o : Vectorization) :
    Raises [.overrideArity] (c.checkOverrides o) := by
  rw [checkOverrides]
  split
  · exact raises_blame (by simp [Fault.kind]) ""
  split
  · exact raises_blame (by simp [Fault.kind]) ""
  · exact raises_checkKeywordOverrides c [] o.kwargs

theorem raises_vectorizePositional (lookup : Lookup) (vs : List Variable) (os : List Override) :
    (vectorizePositional lookup vs os).Raises [.malformedOverride] := by
  induction vs generalizing os with
  | nil => cases os <;> exact Progress.raises_done _
  | cons v vs ih =>
    cases os with
    | nil => exact Progress.raises_done _
    | cons o os =>
      rw [vectorizePositional]
      exact Progress.raises_andThen (v.raises_vectorize lookup o) fun w ↦ Progress.raises_map (ih os)

theorem raises_vectorizeKeyword (lookup : Lookup) (name : String) (o : Override)
    (vs : List Variable) : (vectorizeKeyword lookup name o vs).Raises [.malformedOverride] := by
  induction vs with
  | nil => exact Progress.raises_done _
  | cons v vs ih =>
    rw [vectorizeKeyword]
    split
    · exact Progress.raises_map (v.raises_vectorize lookup o)
    · exact Progress.raises_map ih

theorem raises_vectorizeKeywords (lookup : Lookup) (vs : List Variable)
    (os : List (String × Override)) :
    (vectorizeKeywords lookup vs os).Raises [.malformedOverride] := by
  induction os generalizing vs with
  | nil => exact Progress.raises_done vs
  | cons e os ih =>
    rw [vectorizeKeywords]
    exact Progress.raises_andThen (raises_vectorizeKeyword lookup _ _ vs) ih

theorem raises_vectorize (lookup : Lookup) (c : Call) (o : Vectorization) :
    (c.vectorize lookup o).Raises [.overrideArity, .malformedOverride] := by
  rw [vectorize]
  split
  · next e he =>
    rintro _ ⟨⟩
    exact (raises_checkOverrides c o).mono (by simp) e he
  · refine Progress.raises_andThen ?_ fun args ↦ Progress.raises_map ?_
    · exact (raises_vectorizePositional lookup c.args o.args).mono (by simp)
    · exact (raises_vectorizeKeywords lookup c.kwargs o.kwargs).mono (by simp)

end Call

/-! ## Resolving -/

namespace Node

theorem raises_ask {α : Type} (n : Node) (answer : Except MarshallError α) :
    Raises [.bindingLookup, .marshall] (n.ask answer) := by
  cases answer with
  | ok a => exact raises_ok a
  | error e => exact raises_blame (by simp [Fault.kind]) n.path

theorem raises_boundType (n : Node) : Raises [.bindingLookup, .marshall] n.boundType := by
  rw [boundType]
  split
  · exact raises_ok _
  · exact raises_blame (by simp [Fault.kind]) n.path

theorem raises_resolvedType (n : Node) : Raises [.bindingLookup, .marshall] n.resolvedType :=
  Raises.bind n.raises_boundType fun _ _ ↦ n.raises_ask _

theorem raises_assignType (n : Node) : Raises [.bindingLookup, .marshall] n.assignType := by
  rw [assignType]
  split
  · exact Raises.bind (n.raises_ask _) fun t _ ↦ raises_ok _
  split
  · exact Raises.bind n.raises_resolvedType fun t _ ↦ raises_ok _
  · exact raises_ok n

theorem raises_assignDimensionality (n : Node) :
    Raises [.bindingLookup, .marshall] n.assignDimensionality := by
  have hrest : ∀ t, Raises [.bindingLookup, .marshall]
      (if n.mapping.isResolved then
        .ok { n with vectorType? := some t, dimensionality? := some n.mapping.extent }
      else n.ask (n.marshall.dimensionality t) >>= fun d ↦
        .ok { n with vectorType? := some t, dimensionality? := some d }) := by
    intro t
    split
    · exact raises_ok _
    · exact Raises.bind (n.raises_ask _) fun d _ ↦ raises_ok _
  rw [assignDimensionality]
  cases n.vectorType? with
  | some t => exact hrest t
  | none => exact Raises.bind n.raises_boundType fun t _ ↦ hrest t

theorem raises_resolve (n : Node) : n.resolve.Raises [.bindingLookup, .marshall] :=
  Progress.raises_andThen (Progress.raises_ofExcept n.raises_assignType) fun m ↦
    Progress.raises_ofExcept m.raises_assignDimensionality

theorem raises_resolveContainer (fields : List Variable) (n : Node) :
    Raises [.bindingLookup, .marshall] (n.resolveContainer fields) := by
  rw [resolveContainer]
  cases n.vectorType? with
  | some t => exact raises_ok _
  | none => exact Raises.bind n.raises_resolvedType fun t _ ↦ raises_ok _

end Node

theorem Variable.raises_resolve (v : Variable) :
    v.resolve.Raises [.bindingLookup, .marshall] := by
  induction v with
  | leaf n => exact Progress.raises_map n.raises_resolve
  | dict n fs ih =>
    rw [resolve, resolveFields_eq_traverse]
    refine Progress.raises_andThen (Progress.raises_traverse ih) fun fs ↦ Progress.raises_map ?_
    exact Progress.raises_ofExcept (n.raises_resolveContainer fs)

theorem Call.raises_traverse {ks : List BindErrorKind} {c : Call} {g : Variable → Progress Variable}
    (h : ∀ v ∈ c.roots, (g v).Raises ks) : (c.traverse g).Raises ks := by
  rw [traverse]
  refine Progress.raises_andThen ?_ fun args ↦ Progress.raises_map ?_
  · exact Progress.raises_traverse fun v hv ↦ h v (List.mem_append_left _ hv)
  · exact Progress.raises_traverse fun v hv ↦ h v (List.mem_append_right _ hv)

theorem Call.raises_resolve (c : Call) : c.resolve.Raises [.bindingLookup, .marshall] :=
  raises_traverse fun v _ ↦ v.raises_resolve

/-! ## Aligning -/

/-- A leaf within the rank of the dispatch can only be refused by strict broadcasting. -/
theorem Node.raises_align {g : Dispatch} {n : Node}
    (h : ∀ rank, n.dimensionality? = some rank → rank ≤ g.rank) :
    Raises [.strictBroadcasting, .marshall] (n.align g) := by
  rw [align]
  cases hrank : n.dimensionality? with
  | none => exact raises_blame (by simp [Fault.kind]) n.path
  | some rank =>
    simp only [Mapping.trailing?, if_pos (h rank hrank)]
    split
    · exact raises_blame (by simp [Fault.kind]) n.path
    split
    · exact raises_ok n
    · exact raises_ok _

theorem Variable.raises_align {g : Dispatch} {v : Variable}
    (h : ∀ n ∈ v.leaves, ∀ rank, n.dimensionality? = some rank → rank ≤ g.rank) :
    (v.align g).Raises [.strictBroadcasting, .marshall] := by
  induction v with
  | leaf n =>
    exact Progress.raises_map (Progress.raises_ofExcept (Node.raises_align (h n (by simp))))
  | dict n fs ih =>
    rw [align, alignFields_eq_traverse]
    refine Progress.raises_map (Progress.raises_traverse fun f hf ↦ ih f hf fun m hm ↦ ?_)
    exact h m (mem_leaves_of_field hf hm)

theorem Call.raises_align {g : Dispatch} {c : Call}
    (h : ∀ n ∈ c.leaves, ∀ rank, n.dimensionality? = some rank → rank ≤ g.rank) :
    (c.align g).Raises [.strictBroadcasting, .marshall] :=
  raises_traverse fun v hv ↦ Variable.raises_align fun n hn ↦
    h n (List.mem_flatMap.mpr ⟨v, hv, hn⟩)

/-! ## Differentiating -/

theorem Node.raises_vectorType (n : Node) : Raises [.marshall] n.vectorType := by
  rw [vectorType]
  split
  · exact raises_ok _
  · exact raises_blame (by simp [Fault.kind]) n.path

theorem Node.raises_differentiate (mode : CallMode) (n : Node) :
    Raises [.marshall] (n.differentiate mode) :=
  Raises.bind n.raises_vectorType fun _ _ ↦ raises_ok _

theorem Variable.raises_differentiate (mode : CallMode) (v : Variable) :
    (v.differentiate mode).Raises [.marshall] := by
  induction v with
  | leaf n => exact Progress.raises_map (Progress.raises_ofExcept (n.raises_differentiate mode))
  | dict n fs ih =>
    rw [differentiate]
    refine Progress.raises_andThen (Progress.raises_ofExcept (n.raises_differentiate mode)) fun m ↦ ?_
    rw [differentiateFields_eq_traverse]
    exact Progress.raises_map (Progress.raises_traverse ih)

theorem Call.raises_differentiate (mode : CallMode) (c : Call) :
    (c.differentiate mode).Raises [.marshall] :=
  raises_traverse fun v _ ↦ v.raises_differentiate mode

/-! ## Emitting -/

theorem Node.raises_leafCommands (isRoot : Bool) (n : Node) :
    Raises [.nonWritableWrite, .marshall] (n.leafCommands isRoot) := by
  rw [leafCommands]
  split
  · exact raises_blame (by simp [Fault.kind]) n.path
  split
  · exact raises_blame (by simp [Fault.kind]) n.path
  · exact raises_ok _

theorem raises_fieldAccessors (t : KernelType) (fields : List Variable) (slot : Slot) :
    Raises [.marshall] (fieldAccessors t fields slot) := by
  refine Raises.bind (raises_mapM fun v _ ↦ ?_) fun loads _ ↦ raises_ok _
  exact Raises.bind v.node.raises_vectorType fun t _ ↦ raises_ok _

namespace Variable

theorem raises_typeCommands (gridRank : Nat) (isRoot : Bool) (v : Variable) :
    Raises [.nonWritableWrite, .marshall] (v.typeCommands gridRank isRoot) := by
  induction v generalizing isRoot with
  | leaf n => exact n.raises_leafCommands isRoot
  | dict n fs ih =>
    have hfields : ∀ vs : List Variable, vs ⊆ fs →
        Raises [.nonWritableWrite, .marshall] (fieldTypeCommands gridRank vs) := by
      intro vs hvs
      induction vs with
      | nil => exact raises_ok []
      | cons v vs ihs =>
        rw [List.cons_subset] at hvs
        refine Raises.bind (ih v hvs.1 false) fun first _ ↦ ?_
        exact Raises.bind (ihs hvs.2) fun rest _ ↦ raises_ok _
    refine Raises.bind (n.raises_vectorType.mono (by simp)) fun t _ ↦ ?_
    refine Raises.bind (hfields fs (List.Subset.refl fs)) fun inner _ ↦ ?_
    refine Raises.bind (raises_mapM fun slot _ ↦ ?_) fun accessors _ ↦ raises_ok _
    exact (raises_fieldAccessors t fs slot).mono (by simp)

theorem raises_emit (gridRank : Nat) (isRoot : Bool) (v : Variable) (m : Code.Module) :
    Raises [.nonWritableWrite, .marshall] (v.emit gridRank isRoot m) :=
  Raises.bind (v.raises_typeCommands gridRank isRoot) fun _ _ ↦ raises_ok _

theorem raises_formal (v : Variable) : Raises [.marshall] v.formal :=
  Raises.bind v.node.raises_vectorType fun _ _ ↦ raises_ok _

end Variable

namespace Call

theorem raises_trampoline (c : Call) : Raises [.bindingLookup, .marshall] c.trampoline := by
  rw [trampoline]
  split
  · exact raises_blame (by simp [Fault.kind]) ""
  · refine Raises.bind (raises_mapM fun v _ ↦ v.raises_formal.mono (by simp)) fun formals _ ↦ ?_
    exact raises_ok _

theorem raises_emit (gridRank : Nat) (c : Call) :
    Raises [.bindingLookup, .nonWritableWrite, .marshall] (c.emit gridRank) := by
  refine Raises.bind (raises_foldlM (fun m v _ ↦ ?_) _) fun m _ ↦ ?_
  · exact (v.raises_emit gridRank true m).mono (by simp)
  · exact Raises.bind (c.raises_trampoline.mono (by simp)) fun commands _ ↦ raises_ok _

/-! ## Building -/

/-- What can be wrong with a call before the rank of its dispatch is known. -/
theorem raises_prepare (lookup : Lookup) (f : Function) (a : Arguments) (o : Vectorization) :
    Raises [.overrideArity, .malformedOverride, .bindingLookup, .marshall]
      (prepare lookup f a o) := by
  refine Raises.bind ((raises_ofArguments _ a).mono (by simp)) fun c _ ↦ ?_
  refine Raises.bind ?_ fun c _ ↦ Raises.bind ?_ fun c _ ↦ ?_
  · exact Progress.raises_toExcept ((raises_bind c f).mono (by simp))
  · exact Progress.raises_toExcept ((raises_vectorize lookup c o).mono (by simp))
  · exact Progress.raises_toExcept (c.raises_resolve.mono (by simp))

end Call

end KernelCall
