import KernelCall.Proofs.Call.Outcome
import KernelCall.Proofs.Call.Place

/-!
# What a pass can alter

A pass works on the call in place, and when it stops the variables before the failure are altered
already. So a frame lemma is about the state that a pass leaves, whether it went through or not. For
each pass there is a relation that says what it may do to a node, and the lemma that this is all it
does to a variable: neither the tree nor any other field of a node changes.

A relation that holds of a node and itself covers whatever the pass has not come to.
-/

namespace KernelCall

theorem Mapping.eq_unresolved {m : Mapping} (h : ¬ m.isResolved) : m = .unresolved := by
  rcases m with _ | l
  · rfl
  · exact absurd rfl h

/-! ## What may be done to a node -/

namespace Node

/-- Overriding leaves a leaf alone or applies the pin for it. -/
def Overridden (lookup : Lookup) (pin? : Option Pin) (n m : Node) : Prop :=
  m = n ∨ ∃ p, pin? = some p ∧ n.pin lookup p = .ok m

/-- Overriding leaves a dictionary's own node alone or pins it to a type. -/
def Typecast (lookup : Lookup) (n m : Node) : Prop :=
  m = n ∨ ∃ p : Pin, p.isAxes = false ∧ n.pin lookup p = .ok m

/-- Resolving decides on types and dimensionalities. -/
def Resolved (n m : Node) : Prop :=
  ∃ vectorType? dimensionality?, m = { n with vectorType?, dimensionality? }

theorem Resolved.refl (n : Node) : n.Resolved n := ⟨n.vectorType?, n.dimensionality?, rfl⟩

theorem Resolved.trans {n m k : Node} (h : n.Resolved m) (h' : m.Resolved k) : n.Resolved k := by
  obtain ⟨_, _, rfl⟩ := h
  obtain ⟨vectorType?, dimensionality?, rfl⟩ := h'
  exact ⟨vectorType?, dimensionality?, rfl⟩

/-- Aligning gives a mapping to a leaf that has none. -/
def Aligned (n m : Node) : Prop :=
  m = n ∨ n.mapping = .unresolved ∧ ∃ mapping, m = { n with mapping }

/-- Differentiating decides on derivatives, and grants access to those there are. -/
def Differentiated (n m : Node) : Prop :=
  m = n ∨ ∃ mode differentiable, m = { n with
    differentiable, access := CallMode.access mode differentiable n.direction }

theorem retyped_of_assignType {n m : Node} (h : n.assignType = .ok m) :
    ∃ vectorType?, m = { n with vectorType? } := by
  rw [assignType] at h
  split at h
  · obtain ⟨t, -, h⟩ := bind_eq_ok_iff.mp h
    cases h
    exact ⟨some t, rfl⟩
  split at h
  · obtain ⟨t, -, h⟩ := bind_eq_ok_iff.mp h
    cases h
    exact ⟨some t, rfl⟩
  · cases h
    exact ⟨n.vectorType?, rfl⟩

theorem resolved_of_assignType {n m : Node} (h : n.assignType = .ok m) : n.Resolved m := by
  obtain ⟨vectorType?, rfl⟩ := retyped_of_assignType h
  exact ⟨vectorType?, n.dimensionality?, rfl⟩

theorem resolved_of_assignDimensionality {n m : Node} (h : n.assignDimensionality = .ok m) :
    n.Resolved m := by
  obtain ⟨t, d, -, -, rfl⟩ := assignDimensionality_eq_ok_iff.mp h
  exact ⟨some t, some d, rfl⟩

/-- The type stays when the dimensionality cannot be had. -/
theorem resolved_resolve (n : Node) : n.Resolved n.resolve.state := by
  have htype : n.Resolved (Progress.ofExcept n n.assignType).state :=
    Progress.state_ofExcept_cases (Resolved.refl n) fun m ↦ resolved_of_assignType
  refine Progress.state_andThen_cases htype (htype.trans ?_)
  exact Progress.state_ofExcept_cases (Resolved.refl _) fun m ↦ resolved_of_assignDimensionality

theorem resolved_of_resolveContainer {fields : List Variable} {n m : Node}
    (h : n.resolveContainer fields = .ok m) : n.Resolved m := by
  obtain ⟨t, -, rfl⟩ := resolveContainer_eq_ok_iff.mp h
  exact ⟨some t, _, rfl⟩

theorem aligned_of_align {dispatch : Dispatch} {n m : Node} (h : n.align dispatch = .ok m) :
    n.Aligned m := by
  obtain ⟨d, -, -, -, rfl⟩ := align_eq_ok_iff.mp h
  rw [placed]
  split
  · exact Or.inl rfl
  · next hmapping => exact Or.inr ⟨Mapping.eq_unresolved hmapping, _, rfl⟩

theorem differentiated_of_differentiate {mode : CallMode} {n m : Node}
    (h : n.differentiate mode = .ok m) : n.Differentiated m := by
  obtain ⟨t, -, h⟩ := bind_eq_ok_iff.mp h
  cases h
  exact Or.inr ⟨mode, _, rfl⟩

end Node

/-! ## Frames of variables -/

namespace Variable

section

variable (path : String) (target : Target)

theorem name_bindTo (v : Variable) : (v.bindTo path target).state.name = v.name := by
  cases v with
  | leaf n => rfl
  | dict n fs =>
    rw [bindTo]
    exact Progress.state_andThen_cases (motive := fun w : Variable ↦ w.name = n.name) rfl rfl

/-- Binding keeps the tree and all that is known of its nodes, apart from paths and targets, whether
it goes through or not. -/
theorem related_bindTo (v : Variable) :
    Related Node.Retargeted v (v.bindTo path target).state := by
  induction v generalizing path target with
  | leaf n => exact related_leaf ⟨path, some target, rfl⟩
  | dict n fs ih =>
    have hself : ∀ vs : List Variable, List.Forall₂ (Related Node.Retargeted) vs vs := fun vs ↦
      List.forall₂_same.mpr fun v _ ↦ related_self fun n _ ↦ Node.Retargeted.refl n
    have hfields : ∀ vs : List Variable, (∀ v ∈ vs, v ∈ fs) →
        List.Forall₂ (Related Node.Retargeted) vs (bindFields path target vs).state := by
      intro vs hvs
      induction vs with
      | nil => exact .nil
      | cons v vs ihvs =>
        rw [List.forall_mem_cons] at hvs
        rw [bindFields]
        -- whether the field is refused, fails inside or goes through, the tree stays
        split
        · exact hself (v :: vs)
        · refine Progress.state_andThen_cases ?_ ?_
          · exact .cons (ih v hvs.1 _ _) (hself vs)
          · exact .cons (ih v hvs.1 _ _) (ihvs hvs.2)
    rw [bindTo]
    refine Progress.state_andThen_cases ?_ ?_
    · exact related_dict ⟨path, n.target?, rfl⟩ (hfields fs fun _ ↦ id)
    · exact related_dict ⟨path, some target, rfl⟩ (hfields fs fun _ ↦ id)

/-- Binding alters what nodes are bound to. -/
theorem altered_bindTo (v : Variable) :
    Altered (fun _ ↦ Node.Rebound) Node.Rebound none v (v.bindTo path target).state :=
  altered_of_related (related_bindTo path target v) (fun _ _ ↦ Node.Retargeted.name)
    (fun _ _ ↦ Node.Retargeted.rebound) fun _ _ ↦ Node.Retargeted.rebound

end

section

variable {L : Option Pin → Node → Node → Prop} {D : Node → Node → Prop} {o? : Option Override}
  {v w : Variable}

/-- Changes to a root that do not matter can be made beforehand. -/
theorem Altered.of_mapNode {f : Node → Node} (h : Altered L D o? (v.mapNode f) w)
    (hL : ∀ p? n m, L p? (f n) m → L p? n m) (hD : ∀ n m, D (f n) m → D n m) :
    Altered L D o? v w := by
  cases v with
  | leaf n =>
    obtain ⟨m, rfl, hm⟩ := altered_leaf_iff.mp h
    exact altered_leaf (hL _ n m hm)
  | dict n fs =>
    obtain ⟨m, gs, rfl, hm, hfg⟩ := altered_dict_iff.mp h
    exact altered_dict (hD n m hm) hfg

theorem altered_bindRoot (v : Variable) (name : String) (target : Target)
    (paramIndex? : Option Nat) : Altered (fun _ ↦ Node.Rebound) Node.Rebound none v
      (v.bindRoot name target paramIndex?).state := by
  have hroot : ∀ (name : String) (n m : Node), Node.Rebound { n with name, paramIndex? } m →
      n.Rebound m := fun name n m hm ↦
    Node.Rebound.trans ⟨name, n.path, n.target?, paramIndex?, rfl⟩ hm
  exact (altered_bindTo _ target _).of_mapNode (fun _ ↦ hroot _) (hroot _)

theorem name_bindRoot (v : Variable) (name : String) (target : Target)
    (paramIndex? : Option Nat) : (v.bindRoot name target paramIndex?).state.name =
      if v.name.isEmpty then name else v.name := by
  rw [bindRoot, name_bindTo, Variable.name, node_mapNode]

/-! A relation between nodes covers a pass that stops half-way if a node has it to itself, and is
good for finding fields by name if it keeps names. -/

/-- The relations between nodes hold of a node and itself, and keep names. -/
structure InPlace (L : Option Pin → Node → Node → Prop) (D : Node → Node → Prop) : Prop where
  leaf : ∀ p? n, L p? n n
  dict : ∀ n, D n n
  leafName : ∀ p? n m, L p? n m → m.name = n.name
  dictName : ∀ n m, D n m → m.name = n.name

theorem Altered.name_eq (h : Altered L D o? v w) (hin : InPlace L D) : w.name = v.name :=
  (h.related hin.leafName hin.dictName).node

/-- A traversal alters each variable in place, or has not come to it. -/
theorem InPlace.forall₂_traverse (hin : InPlace L D) {f : Variable → Progress Variable}
    {vs : List Variable} (h : ∀ v ∈ vs, Altered L D none v (f v).state) :
    List.Forall₂ (fun v w ↦ w.name = v.name ∧ Altered L D none v w) vs
      (Progress.traverse f vs).state :=
  Progress.forall₂_state_traverse (fun v hv ↦ ⟨(h v hv).name_eq hin, h v hv⟩)
    fun v _ ↦ ⟨rfl, altered_self hin.leaf hin.dict none v⟩

end

theorem inPlace_overridden (lookup : Lookup) :
    InPlace (Node.Overridden lookup) (Node.Typecast lookup) where
  leaf _ _ := Or.inl rfl
  dict _ := Or.inl rfl
  leafName := by
    rintro p? n m (rfl | ⟨p, -, hm⟩)
    · rfl
    · exact Node.name_of_pin hm
  dictName := by
    rintro n m (rfl | ⟨p, -, hm⟩)
    · rfl
    · exact Node.name_of_pin hm

/-- Overriding applies to each leaf the pin for its place, or nothing. -/
theorem altered_vectorize (lookup : Lookup) (o : Override) (v : Variable) :
    Altered (Node.Overridden lookup) (Node.Typecast lookup) (some o) v
      (v.vectorize lookup o).state := by
  have hin := inPlace_overridden lookup
  induction v generalizing o with
  | leaf n =>
    cases o with
    | fields entries => exact altered_leaf (Or.inl rfl)
    | pin p =>
      refine altered_leaf ?_
      exact Progress.state_ofExcept_cases (Or.inl rfl) fun m hm ↦ Or.inr ⟨p, rfl, hm⟩
  | dict n fs ih =>
    cases o with
    | pin p => exact altered_self hin.leaf hin.dict _ _
    | fields entries =>
      -- induction on the fields that are left, for the hypothesis is about all fields
      have hfields : ∀ vs : List Variable, (∀ v ∈ vs, v ∈ fs) → List.Forall₂ (fun f g ↦
          g.name = f.name ∧ Altered (Node.Overridden lookup) (Node.Typecast lookup)
            (Override.entry? entries f.name) f g) vs (vectorizeFields lookup entries vs).state := by
        intro vs hvs
        induction vs with
        | nil => exact .nil
        | cons v vs ihvs =>
          rw [List.forall_mem_cons] at hvs
          rw [vectorizeFields]
          cases hentry : Override.entry? entries v.name with
          | none =>
            refine .cons ⟨rfl, ?_⟩ (ihvs hvs.2)
            exact altered_self hin.leaf hin.dict _ v
          | some o =>
            have hv := ih v hvs.1 o
            rw [← hentry] at hv
            refine Progress.state_andThen_cases ?_ ?_
            · refine .cons ⟨hv.name_eq hin, hv⟩ (List.forall₂_same.mpr fun w _ ↦ ⟨rfl, ?_⟩)
              exact altered_self hin.leaf hin.dict _ w
            · exact .cons ⟨hv.name_eq hin, hv⟩ (ihvs hvs.2)
      rw [vectorize]
      split
      · exact altered_self hin.leaf hin.dict _ _
      · refine Progress.state_andThen_cases ?_ ?_
        · exact altered_dict (Or.inl rfl) (hfields fs fun _ ↦ id)
        · refine altered_dict ?_ (hfields fs fun _ ↦ id)
          exact Progress.state_ofExcept_cases (Or.inl rfl) fun m ↦ Node.pinContainer_eq_ok

theorem inPlace_resolved : InPlace (fun _ ↦ Node.Resolved) Node.Resolved where
  leaf _ := Node.Resolved.refl
  dict := Node.Resolved.refl
  leafName := by
    rintro _ n _ ⟨_, _, rfl⟩
    rfl
  dictName := by
    rintro n _ ⟨_, _, rfl⟩
    rfl

/-- What resolving does to nodes it does to the nodes of a variable, whether it goes through or not. -/
theorem related_resolve {R : Node → Node → Prop} (hself : ∀ n, R n n)
    (hleaf : ∀ n, R n n.resolve.state)
    (hdict : ∀ fs n m, Node.resolveContainer fs n = .ok m → R n m) (v : Variable) :
    Related R v v.resolve.state := by
  induction v with
  | leaf n => exact related_leaf (hleaf n)
  | dict n fs ih =>
    have hfields : List.Forall₂ (Related R) fs (Progress.traverse resolve fs).state :=
      Progress.forall₂_state_traverse ih fun f _ ↦ related_self fun m _ ↦ hself m
    rw [resolve, resolveFields_eq_traverse]
    refine Progress.state_andThen_cases ?_ ?_
    · exact related_dict (hself n) hfields
    · refine related_dict ?_ hfields
      exact Progress.state_ofExcept_cases (hself n) fun m ↦ hdict _ n m

theorem altered_resolve (v : Variable) :
    Altered (fun _ ↦ Node.Resolved) Node.Resolved none v v.resolve.state := by
  have hrelated := related_resolve Node.Resolved.refl Node.resolved_resolve
    (fun fs n m ↦ Node.resolved_of_resolveContainer) v
  exact altered_of_related hrelated (inPlace_resolved.dictName) (fun _ _ ↦ id) fun _ _ ↦ id

theorem inPlace_aligned : InPlace (fun _ ↦ Node.Aligned) Eq where
  leaf _ _ := Or.inl rfl
  dict _ := rfl
  leafName := by
    rintro _ n _ (rfl | ⟨-, _, rfl⟩) <;> rfl
  dictName _ _ h := h ▸ rfl

theorem altered_align (dispatch : Dispatch) (v : Variable) :
    Altered (fun _ ↦ Node.Aligned) Eq none v (v.align dispatch).state := by
  induction v with
  | leaf n =>
    refine altered_leaf ?_
    exact Progress.state_ofExcept_cases (Or.inl rfl) fun m ↦ Node.aligned_of_align
  | dict n fs ih =>
    rw [align, alignFields_eq_traverse]
    exact altered_dict rfl (inPlace_aligned.forall₂_traverse ih)

theorem inPlace_differentiated : InPlace (fun _ ↦ Node.Differentiated) Node.Differentiated where
  leaf _ _ := Or.inl rfl
  dict _ := Or.inl rfl
  leafName := by
    rintro _ n _ (rfl | ⟨_, _, rfl⟩) <;> rfl
  dictName := by
    rintro n _ (rfl | ⟨_, _, rfl⟩) <;> rfl

theorem altered_differentiate (mode : CallMode) (v : Variable) :
    Altered (fun _ ↦ Node.Differentiated) Node.Differentiated none v
      (v.differentiate mode).state := by
  have hself := altered_self inPlace_differentiated.leaf inPlace_differentiated.dict none
  have hnode : ∀ n : Node, n.Differentiated (Progress.ofExcept n (n.differentiate mode)).state :=
    fun n ↦ Progress.state_ofExcept_cases (Or.inl rfl) fun m ↦ Node.differentiated_of_differentiate
  induction v with
  | leaf n => exact altered_leaf (hnode n)
  | dict n fs ih =>
    rw [differentiate, differentiateFields_eq_traverse]
    refine Progress.state_andThen_cases ?_ ?_
    · exact altered_dict (hnode n) (List.forall₂_same.mpr fun f _ ↦ ⟨rfl, hself f⟩)
    · exact altered_dict (hnode n) (inPlace_differentiated.forall₂_traverse ih)

end Variable

/-! ## Frames of calls -/

namespace Call

section

variable {L : Option Pin → Node → Node → Prop} {D : Node → Node → Prop} {c c' : Call}

theorem altered_of_forall₂ (hargs : List.Forall₂ (Variable.Altered L D none) c.args c'.args)
    (hkwargs : List.Forall₂ (fun v w ↦ w.name = v.name ∧ Variable.Altered L D none v w) c.kwargs
      c'.kwargs) : c.Altered L D {} c' where
  args := rel_getElem?_of_forall₂ hargs
  kwargs := hkwargs

/-- A pass that goes over all variables alters them one by one. -/
theorem altered_traverse (hin : Variable.InPlace L D) {f : Variable → Progress Variable}
    (h : ∀ v, Variable.Altered L D none v (f v).state) (c : Call) :
    c.Altered L D {} (c.traverse f).state := by
  have hargs := hin.forall₂_traverse fun v (_ : v ∈ c.args) ↦ h v
  have hkwargs := hin.forall₂_traverse fun v (_ : v ∈ c.kwargs) ↦ h v
  have hself : List.Forall₂ (fun v w : Variable ↦ w.name = v.name ∧ Variable.Altered L D none v w)
      c.kwargs c.kwargs :=
    List.forall₂_same.mpr fun v _ ↦ ⟨rfl, Variable.altered_self hin.leaf hin.dict none v⟩
  rw [traverse]
  refine Progress.state_andThen_cases ?_ ?_
  · exact altered_of_forall₂ (hargs.imp fun _ _ ↦ And.right) hself
  · exact altered_of_forall₂ (hargs.imp fun _ _ ↦ And.right) hkwargs

end

/-! ### Binding -/

theorem forall₂_state_bindPositional {R : Variable → Variable → Prop} (hself : ∀ v, R v v)
    (hroot : ∀ v name target index?, R v (v.bindRoot name target index?).state) (index : Nat)
    (vs : List Variable) (ps : List Parameter) :
    List.Forall₂ R vs (bindPositional index vs ps).state := by
  have hselves : ∀ vs : List Variable, List.Forall₂ R vs vs := fun vs ↦
    List.forall₂_same.mpr fun v _ ↦ hself v
  induction vs generalizing index ps with
  | nil => rcases ps with _ | ⟨p, ps⟩ <;> exact .nil
  | cons v vs ih =>
    rcases ps with _ | ⟨p, ps⟩
    · exact hselves (v :: vs)
    · have hv := hroot v p.name ⟨p.type, p.modifiers⟩ (some index)
      rw [bindPositional]
      refine Progress.state_andThen_cases ?_ ?_
      · exact .cons hv (hselves vs)
      · exact .cons hv (ih (index + 1) ps)

theorem altered_bindPositional (index : Nat) (vs : List Variable) (ps : List Parameter) :
    List.Forall₂ (Variable.Altered (fun _ ↦ Node.Rebound) Node.Rebound none) vs
      (bindPositional index vs ps).state :=
  forall₂_state_bindPositional
    (Variable.altered_self (fun _ ↦ Node.Rebound.refl) Node.Rebound.refl none)
    Variable.altered_bindRoot index vs ps

/-- A keyword variable keeps its name: what its keyword names is of that name. -/
theorem altered_bindKeyword (f : Function) (v : Variable) :
    (bindKeyword f v).state.name = v.name ∧
      Variable.Altered (fun _ ↦ Node.Rebound) Node.Rebound none v (bindKeyword f v).state := by
  have hroot : ∀ {name : String}, name = v.name → ∀ target index?,
      (v.bindRoot name target index?).state.name = v.name ∧ Variable.Altered
        (fun _ ↦ Node.Rebound) Node.Rebound none v (v.bindRoot name target index?).state := by
    intro name hname target index?
    rw [Variable.name_bindRoot, hname, ite_self]
    exact ⟨rfl, v.altered_bindRoot v.name target index?⟩
  have hself : (Progress.done v).state.name = v.name ∧ Variable.Altered (fun _ ↦ Node.Rebound)
      Node.Rebound none v (Progress.done v).state :=
    ⟨rfl, Variable.altered_self (fun _ ↦ Node.Rebound.refl) Node.Rebound.refl none v⟩
  rw [bindKeyword]
  split
  · next hreceiver =>
    split
    · exact hroot (beq_iff_eq.mp hreceiver).symm _ _
    · exact hself
  split
  · next hresult =>
    split
    · exact hroot (beq_iff_eq.mp hresult).symm _ _
    · exact hself
  split
  · next hparam => exact hroot (Function.name_of_param? hparam).1 _ _
  · exact hself

/-- **The frame of binding.** -/
theorem altered_bind (f : Function) (c : Call) :
    c.Altered (fun _ ↦ Node.Rebound) Node.Rebound {} (c.bind f).state := by
  have hargs := altered_bindPositional 0 c.args f.params
  have hkwargs := Progress.forall₂_state_traverse (R := fun v w : Variable ↦ w.name = v.name ∧
      Variable.Altered (fun _ ↦ Node.Rebound) Node.Rebound none v w)
    (fun v (_ : v ∈ c.kwargs) ↦ altered_bindKeyword f v)
    fun v _ ↦ ⟨rfl, Variable.altered_self (fun _ ↦ Node.Rebound.refl) Node.Rebound.refl none v⟩
  rw [bind]
  split
  · exact altered_self (fun _ ↦ Node.Rebound.refl) Node.Rebound.refl {} c
  · refine Progress.state_andThen_cases ?_ (Progress.state_andThen_cases ?_ ?_)
    · exact altered_of_forall₂ hargs (List.forall₂_same.mpr fun v _ ↦
        ⟨rfl, Variable.altered_self (fun _ ↦ Node.Rebound.refl) Node.Rebound.refl none v⟩)
    · exact altered_of_forall₂ hargs hkwargs
    · exact altered_of_forall₂ hargs hkwargs

/-! ### Overriding -/

section

variable (lookup : Lookup)

theorem altered_vectorizePositional (vs : List Variable) (os : List Override) (i : Nat) :
    Option.Rel (Variable.Altered (Node.Overridden lookup) (Node.Typecast lookup) os[i]?) vs[i]?
      (vectorizePositional lookup vs os).state[i]? := by
  have hin := Variable.inPlace_overridden lookup
  have hself := fun (os : List Override) (vs : List Variable) (i : Nat) ↦
    (altered_self hin.leaf hin.dict { args := os } { args := vs }).args i
  induction vs generalizing os i with
  | nil => cases os <;> exact .none
  | cons v vs ih =>
    cases os with
    | nil => exact hself [] (v :: vs) i
    | cons o os =>
      have hv := Variable.altered_vectorize lookup o v
      rw [vectorizePositional]
      refine Progress.state_andThen_cases (motive := fun ws : List Variable ↦ Option.Rel
        (Variable.Altered (Node.Overridden lookup) (Node.Typecast lookup) (o :: os)[i]?)
          (v :: vs)[i]? ws[i]?) ?_ ?_
      · cases i with
        | zero => exact .some hv
        | succ i => exact hself os vs i
      · cases i with
        | zero => exact .some hv
        | succ i => exact ih os i

/-- Overriding one keyword leaves all variables but the first of that name. -/
theorem vectorizeKeyword_state (name : String) (o : Override) (vs : List Variable) :
    List.Forall₂ (fun v w ↦ w = v ∨ v.name = name ∧ w = (v.vectorize lookup o).state) vs
      (vectorizeKeyword lookup name o vs).state := by
  induction vs with
  | nil => exact .nil
  | cons v vs ih =>
    rw [vectorizeKeyword]
    split
    · next hname =>
      exact .cons (Or.inr ⟨beq_iff_eq.mp hname, rfl⟩) (List.forall₂_same.mpr fun w _ ↦ Or.inl rfl)
    · exact .cons (Or.inl rfl) ih

/-- Overrides whose keywords differ come to different variables, so that each variable is left alone
or treated once. -/
theorem vectorizeKeywords_state {os : List (String × Override)} (hos : (os.map (·.1)).Nodup)
    (vs : List Variable) :
    List.Forall₂ (fun v w ↦ w = v ∨ ∃ o, Override.entry? os v.name = some o ∧
      w = (v.vectorize lookup o).state) vs (vectorizeKeywords lookup vs os).state := by
  induction os generalizing vs with
  | nil => exact List.forall₂_same.mpr fun v _ ↦ Or.inl rfl
  | cons e os ih =>
    obtain ⟨name, o⟩ := e
    rw [List.map_cons, List.nodup_cons] at hos
    have hfirst := vectorizeKeyword_state lookup name o vs
    have hentry : ∀ v : Variable, v.name = name →
        Override.entry? ((name, o) :: os) v.name = some o := fun v hv ↦ by
      rw [Override.entry?_cons, if_pos hv.symm]
    rw [vectorizeKeywords]
    refine Progress.state_andThen_cases ?_ ?_
    · refine hfirst.imp fun v w hvw ↦ ?_
      rcases hvw with rfl | ⟨hname, rfl⟩
      · exact Or.inl rfl
      · exact Or.inr ⟨o, hentry v hname, rfl⟩
    · -- a variable that the first override has treated is not named by those that follow
      have hnone : Override.entry? os name = none := Override.entry?_eq_none_iff.mpr hos.1
      have hrest := ih hos.2 (vectorizeKeyword lookup name o vs).state
      refine forall₂_of_common hfirst.flip hrest fun u _ v w hvu huw ↦ ?_
      rcases hvu with rfl | ⟨hname, rfl⟩
      · rcases huw with rfl | ⟨o', ho', rfl⟩
        · exact Or.inl rfl
        · have hne : name ≠ u.name := by
            rintro rfl
            rw [hnone] at ho'
            cases ho'
          exact Or.inr ⟨o', by rw [Override.entry?_cons, if_neg hne, ho'], rfl⟩
      · have hkept : (v.vectorize lookup o).state.name = name :=
          ((Variable.altered_vectorize lookup o v).name_eq
            (Variable.inPlace_overridden lookup)).trans hname
        rw [hkept, hnone] at huw
        rcases huw with rfl | ⟨_, ho', -⟩
        · exact Or.inr ⟨o, hentry v hname, rfl⟩
        · cases ho'

/-- **The frame of overriding.** -/
theorem altered_vectorize (c : Call) (o : Vectorization) :
    c.Altered (Node.Overridden lookup) (Node.Typecast lookup) o (c.vectorize lookup o).state := by
  have hin := Variable.inPlace_overridden lookup
  have hself := altered_self hin.leaf hin.dict o c
  rw [vectorize]
  cases hcheck : c.checkOverrides o with
  | error e => exact hself
  | ok u =>
    -- only now it is known that no keyword is overridden twice
    have hmatches := checkOverrides_eq_ok_iff.mp hcheck
    have hargs := altered_vectorizePositional lookup c.args o.args
    refine Progress.state_andThen_cases ⟨hargs, hself.kwargs⟩ ⟨hargs, ?_⟩
    refine (vectorizeKeywords_state lookup hmatches.2.2.2 c.kwargs).imp fun v w hvw ↦ ?_
    rcases hvw with rfl | ⟨o', ho', rfl⟩
    · exact ⟨rfl, Variable.altered_self hin.leaf hin.dict _ w⟩
    · have hv := Variable.altered_vectorize lookup o' v
      rw [ho']
      exact ⟨hv.name_eq hin, hv⟩

end

/-! ### Resolving, aligning and differentiating -/

/-- **The frame of resolving.** -/
theorem altered_resolve (c : Call) :
    c.Altered (fun _ ↦ Node.Resolved) Node.Resolved {} c.resolve.state :=
  altered_traverse Variable.inPlace_resolved Variable.altered_resolve c

/-- **The frame of aligning.** -/
theorem altered_align (dispatch : Dispatch) (c : Call) :
    c.Altered (fun _ ↦ Node.Aligned) Eq {} (c.align dispatch).state :=
  altered_traverse Variable.inPlace_aligned (Variable.altered_align dispatch) c

/-- **The frame of differentiating.** -/
theorem altered_differentiate (mode : CallMode) (c : Call) :
    c.Altered (fun _ ↦ Node.Differentiated) Node.Differentiated {} (c.differentiate mode).state :=
  altered_traverse Variable.inPlace_differentiated (Variable.altered_differentiate mode) c

end Call

end KernelCall
