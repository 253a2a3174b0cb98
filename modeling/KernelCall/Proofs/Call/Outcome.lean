import KernelCall.Call.Build
import KernelCall.Proofs.Call.Bound
import KernelCall.Proofs.Call.Passes
import KernelCall.Proofs.Variable.Altered
import KernelCall.Proofs.Variable.Rank

/-!
# The outcome of a build

A build runs pass after pass over the same nodes. What comes of it can be said at once: the type and
the dimensionality of a leaf depend on the leaf alone, with the pin that is designated for it; the
rank of the dispatch is the greatest of these dimensionalities; and the mapping and the access of a
node depend on the node and on that rank. `Call.outcome?` says this, and `toOption_build` that the
passes come to the same.
-/

namespace KernelCall

/-! ## The reference -/

/-- The type that a pin names. -/
def Pin.namedType? (lookup : Lookup) : Pin → Option KernelType
  | axes _ => none
  | type t => some t
  | typeName name => lookup.layout.find? name
  | hostKind kind => (lookup.registry.forKind kind).toOption.map Marshall.kernelType

namespace Node

/-- The type an invocation receives from a leaf: what its axes leave of the value, the type that is
pinned, or what its marshall makes of the type it is bound to. The returned value has that type. -/
def settledType? (lookup : Lookup) (n : Node) : Option KernelType :=
  match n.pin? with
  | some (.axes l) => (n.marshall.reduce l.length).toOption
  | some p => p.namedType? lookup
  | none => n.target?.bind fun target ↦
    if n.path = resultKeyword then some target.type
    else (n.marshall.resolve target.type).toOption

/-- The dispatch dimensions that a leaf takes part in: one more than the greatest of its axes, or what
the type leaves of the value. -/
def settledRank? (lookup : Lookup) (n : Node) : Option Nat :=
  (n.settledType? lookup).bind fun t ↦
    match n.pin? with
    | some (.axes l) => some (l.max?.elim 0 Text.succCount)
    | _ => (n.marshall.dimensionality t).toOption

/-- The axes of a leaf that takes part in `rank` dimensions of a dispatch. -/
def settledMapping (n : Node) (rank gridRank : Nat) : Mapping :=
  match n.pin? with
  | some (.axes l) => .onto l
  | _ => .onto (List.range' (gridRank - rank) rank)

/-- The node with its type, and with the derivatives and the access that follow from it. -/
def granted (mode : CallMode) (t : KernelType) (n : Node) : Node :=
  let differentiable := !n.noDiff && t.differentiable && n.marshall.hasDerivative
  { n with
    vectorType? := some t
    differentiable
    access := mode.access differentiable n.direction }

/-- What becomes of a leaf in a dispatch of rank `gridRank`. Strict broadcasting refuses a leaf
without a pin that takes part in some, but not all, of the dimensions. -/
def settledLeaf? (lookup : Lookup) (settings : Settings) (gridRank : Nat) (n : Node) :
    Option Node :=
  (n.settledType? lookup).bind fun t ↦ (n.settledRank? lookup).bind fun rank ↦
    if settings.strict ∧ n.pin? = none ∧ rank ≠ 0 ∧ rank ≠ gridRank then none
    else some { n.granted settings.mode t with
      mapping := n.settledMapping rank gridRank
      dimensionality? := some rank }

/-- The type of a dictionary: the one that is pinned, or what its marshall makes of the type it is
bound to. -/
def settledContainerType? (lookup : Lookup) (n : Node) : Option KernelType :=
  match n.pin? with
  | some p => p.namedType? lookup
  | none => n.target?.bind fun target ↦ (n.marshall.resolve target.type).toOption

/-- What becomes of a dictionary's own node. Its dimensionality is the greatest of its fields'. -/
def settledContainer? (lookup : Lookup) (mode : CallMode) (fields : List Variable) (n : Node) :
    Option Node :=
  (n.settledContainerType? lookup).map fun t ↦
    { n.granted mode t with
      dimensionality? := some (greatest (fields.filterMap (·.node.dimensionality?))) }

end Node

/-- What becomes of a variable. -/
def Variable.settled? (lookup : Lookup) (settings : Settings) (gridRank : Nat) :
    Variable → Option Variable :=
  walk? (Node.settledLeaf? lookup settings gridRank) (Node.settledContainer? lookup settings.mode)

namespace Call

/-- The call of the arguments, bound, and with a pin recorded wherever the overrides mean one. -/
def designated? (lookup : Lookup) (f : Function) (a : Arguments) (o : Vectorization) :
    Option Call :=
  (ofArguments lookup.registry a).toOption.bind fun c ↦ (c.bind f).result?.bind fun c ↦
    if o.Matches c then c.designate? o else none

/-- The rank of the dispatch: the greatest dimensionality of any leaf. -/
def settledRank? (lookup : Lookup) (c : Call) : Option Nat :=
  (c.leaves.mapM (Node.settledRank? lookup)).map greatest

/-- **What a build comes to**, said at once. -/
def outcome? (lookup : Lookup) (settings : Settings) (f : Function) (a : Arguments)
    (o : Vectorization) : Option BuiltCall :=
  (designated? lookup f a o).bind fun c ↦ (c.settledRank? lookup).bind fun gridRank ↦
    (c.mapM? (Variable.settled? lookup settings gridRank)).bind fun c ↦
      (c.emit gridRank).toOption.map fun m ↦ { call := c, gridRank, code := m.text }

end Call

/-! ## Designating changes pins only -/

namespace Node

/-- The node may have another pin, and is otherwise the same. -/
def Repinned (n m : Node) : Prop := ∃ pin?, m = { n with pin? }

theorem Repinned.refl (n : Node) : n.Repinned n := ⟨n.pin?, rfl⟩

theorem designateContainer?_eq_some {entries : List (String × Override)} {n m : Node}
    (h : n.designateContainer? entries = some m) :
    m = n ∨ ∃ p : Pin, p.isAxes = false ∧ m = { n with pin? := some p } := by
  rw [designateContainer?] at h
  split at h
  · cases h
    exact Or.inl rfl
  · cases h
  · next p _ =>
    cases hp : p.isAxes with
    | true =>
      rw [hp] at h
      cases h
    | false =>
      rw [hp] at h
      cases h
      exact Or.inr ⟨p, hp, rfl⟩

end Node

namespace Variable

/-- In a dictionary pins are recorded field by field. -/
theorem designate?_dict_eq_some {o? : Option Override} {n : Node} {fs : List Variable}
    {w : Variable} (h : (dict n fs).designate? o? = some w) :
    ∃ m gs, w = dict m gs ∧
      (m = n ∨ ∃ p : Pin, p.isAxes = false ∧ m = { n with pin? := some p }) ∧
        List.Forall₂ (fun f g ↦ f.designate? (o?.bind (·.field? f.name)) = some g) fs gs := by
  rcases o? with _ | (p | entries)
  · cases h
    exact ⟨n, fs, rfl, Or.inl rfl, List.forall₂_same.mpr fun f _ ↦ designate?_none f⟩
  · cases h
  · rw [designate?] at h
    split at h
    · cases h
    obtain ⟨gs, hgs, h⟩ := Option.bind_eq_some_iff.mp h
    obtain ⟨m, hm, rfl⟩ := Option.map_eq_some_iff.mp h
    rw [designateFields?_eq_mapM] at hgs
    exact ⟨m, gs, rfl, Node.designateContainer?_eq_some hm, mapM_eq_some_iff.mp hgs⟩

theorem related_of_designate? {o? : Option Override} {v w : Variable}
    (h : v.designate? o? = some w) : Related Node.Repinned v w := by
  induction v generalizing o? w with
  | leaf n =>
    rcases o? with _ | (p | entries)
    · cases h
      exact related_leaf (Node.Repinned.refl n)
    · cases h
      exact related_leaf ⟨some p, rfl⟩
    · cases h
  | dict n fs ih =>
    obtain ⟨m, gs, rfl, hm, hfg⟩ := designate?_dict_eq_some h
    have hrepinned : n.Repinned m := by
      rcases hm with rfl | ⟨p, -, rfl⟩
      · exact Node.Repinned.refl m
      · exact ⟨some p, rfl⟩
    exact related_dict hrepinned (forall₂_of_mem hfg fun f hf g _ hfg ↦ ih f hf hfg)

end Variable

namespace Call

theorem related_of_designatePositional? {vs ws : List Variable} {os : List Override}
    (h : designatePositional? vs os = some ws) :
    List.Forall₂ (Variable.Related Node.Repinned) vs ws := by
  induction vs generalizing os ws with
  | nil =>
    cases h
    exact .nil
  | cons v vs ih =>
    obtain ⟨w, hw, h⟩ := Option.bind_eq_some_iff.mp h
    obtain ⟨ws, hws, rfl⟩ := Option.map_eq_some_iff.mp h
    exact .cons (Variable.related_of_designate? hw) (ih hws)

theorem exists_of_mem_designatePositional? {vs ws : List Variable} {os : List Override}
    (h : designatePositional? vs os = some ws) {w : Variable} (hw : w ∈ ws) :
    ∃ v ∈ vs, ∃ o?, v.designate? o? = some w := by
  induction vs generalizing os ws with
  | nil =>
    cases h
    cases hw
  | cons v vs ih =>
    obtain ⟨u, hu, h⟩ := Option.bind_eq_some_iff.mp h
    obtain ⟨us, hus, rfl⟩ := Option.map_eq_some_iff.mp h
    rcases List.mem_cons.mp hw with rfl | hw
    · exact ⟨v, List.mem_cons_self, os.head?, hu⟩
    · obtain ⟨v', hv', hvw⟩ := ih hus hw
      exact ⟨v', List.mem_cons_of_mem v hv', hvw⟩

theorem related_of_designate? {o : Vectorization} {c c' : Call} (h : c.designate? o = some c') :
    List.Forall₂ (Variable.Related Node.Repinned) c.args c'.args ∧
      List.Forall₂ (Variable.Related Node.Repinned) c.kwargs c'.kwargs ∧
        c'.function? = c.function? := by
  obtain ⟨hargs, hkwargs, hfunction⟩ := withVariables?_eq_some_iff.mp h
  exact ⟨related_of_designatePositional? hargs,
    (mapM_eq_some_iff.mp hkwargs).imp fun v w hvw ↦ Variable.related_of_designate? hvw, hfunction⟩

end Call

/-! ## The passes, node by node -/

namespace Node

/-- Neither a mapping nor a type has been given to the node. -/
def Open (n : Node) : Prop := n.mapping = .unresolved ∧ n.vectorType? = none

theorem Open.of_repinned {n m : Node} (h : n.Repinned m) (hn : n.Open) : m.Open := by
  obtain ⟨pin?, rfl⟩ := h
  exact hn

/-- A leaf after pinning and resolving. -/
def resolvedLeaf? (lookup : Lookup) (n : Node) : Option Node :=
  (n.settledType? lookup).bind fun t ↦ (n.settledRank? lookup).map fun rank ↦
    { n with
      mapping := match n.pin? with
        | some (.axes l) => .onto l
        | _ => .unresolved
      vectorType? := some t
      dimensionality? := some rank }

theorem resolvedLeaf?_eq_some {lookup : Lookup} {n m : Node}
    (h : n.resolvedLeaf? lookup = some m) :
    ∃ mapping t rank, n.settledRank? lookup = some rank ∧
      m = { n with mapping, vectorType? := some t, dimensionality? := some rank } := by
  obtain ⟨t, -, h⟩ := Option.bind_eq_some_iff.mp h
  obtain ⟨rank, hrank, rfl⟩ := Option.map_eq_some_iff.mp h
  exact ⟨_, t, rank, hrank, rfl⟩

theorem toOption_ask (n : Node) {α : Type} (answer : Except MarshallError α) :
    (n.ask answer).toOption = answer.toOption := by
  cases answer <;> rfl

theorem toOption_resolvedType (n : Node) :
    n.resolvedType.toOption =
      n.target?.bind fun target ↦ (n.marshall.resolve target.type).toOption := by
  rw [resolvedType, toOption_bind, boundType]
  cases n.target? with
  | none => rfl
  | some target => exact toOption_ask n _

theorem toOption_boundType (n : Node) : n.boundType.toOption = n.target?.map Target.type := by
  rw [boundType]
  cases n.target? <;> rfl

theorem toOption_vectorType (lookup : Lookup) (m : Marshall) {p : Pin} (h : p.isAxes = false) :
    (p.vectorType lookup m).toOption = p.namedType? lookup := by
  cases p with
  | axes l => cases h
  | type t => rfl
  | typeName name =>
    rw [Pin.vectorType, Pin.namedType?]
    cases lookup.layout.find? name <;> rfl
  | hostKind kind =>
    rw [Pin.vectorType, Pin.namedType?]
    cases lookup.registry.forKind kind <;> rfl

theorem toOption_pin (lookup : Lookup) (p : Pin) (n : Node) :
    (n.pin lookup p).toOption = (p.vectorType lookup n.marshall).toOption.map fun t ↦
      { n with mapping := p.mapping n.mapping, vectorType? := some t, pin? := some p } := by
  rw [pin]
  cases p.vectorType lookup n.marshall <;> rfl

theorem toOption_assignType_of_isResolved {n : Node} (h : n.mapping.isResolved) :
    n.assignType.toOption = (n.marshall.reduce n.mapping.rank).toOption.map fun t ↦
      { n with vectorType? := some t } := by
  rw [assignType, if_pos h, toOption_bind, toOption_ask, Option.map_eq_bind]
  rfl

/-- A leaf whose type is pinned keeps it. -/
theorem assignType_of_vectorType? {n : Node} (h : n.mapping = .unresolved) {t : KernelType}
    (ht : n.vectorType? = some t) : n.assignType = .ok n := by
  rw [assignType, h, ht]
  rfl

theorem toOption_assignType_of_open {n : Node} (h : n.Open) :
    n.assignType.toOption = if n.path = resultKeyword then some n else
      n.resolvedType.toOption.map fun t ↦ { n with vectorType? := some t } := by
  rw [assignType, h.1, h.2]
  by_cases hpath : n.path = resultKeyword
  · rw [if_pos hpath, hpath]
    rfl
  · have hne : (n.path != resultKeyword) = true := bne_iff_ne.mpr hpath
    rw [if_neg hpath, hne, if_neg (by simp), if_pos (by simp), toOption_bind, Option.map_eq_bind]
    rfl

theorem toOption_assignDimensionality (n : Node) :
    n.assignDimensionality.toOption =
      (n.vectorType?.or (n.target?.map Target.type)).bind fun t ↦
        (if n.mapping.isResolved then some n.mapping.extent
          else (n.marshall.dimensionality t).toOption).map fun rank ↦
            { n with vectorType? := some t, dimensionality? := some rank } := by
  rw [assignDimensionality, ← toOption_boundType]
  cases hmapping : n.mapping.isResolved with
  | true =>
    cases n.vectorType? with
    | some t => rfl
    | none =>
      rw [Option.none_or]
      exact toOption_bind _ _
  | false =>
    have hrank : ∀ t, (n.ask (n.marshall.dimensionality t) >>= fun rank ↦
        Except.ok { n with vectorType? := some t, dimensionality? := some rank }).toOption =
          (n.marshall.dimensionality t).toOption.map fun rank ↦
            { n with vectorType? := some t, dimensionality? := some rank } := by
      intro t
      rw [toOption_bind, toOption_ask, Option.map_eq_bind]
      rfl
    cases n.vectorType? with
    | some t => exact hrank t
    | none =>
      rw [Option.none_or]
      refine (toOption_bind _ _).trans (Option.bind_congr fun t _ ↦ hrank t)

theorem assignDimensionality_eq_ok_iff {n m : Node} : n.assignDimensionality = .ok m ↔
    ∃ t rank, n.vectorType?.or (n.target?.map Target.type) = some t ∧
      (if n.mapping.isResolved then some n.mapping.extent
        else (n.marshall.dimensionality t).toOption) = some rank ∧
      { n with vectorType? := some t, dimensionality? := some rank } = m := by
  rw [← toOption_eq_some_iff, toOption_assignDimensionality]
  simp only [Option.bind_eq_some_iff, Option.map_eq_some_iff, exists_and_left]

theorem result?_resolve (n : Node) :
    n.resolve.result? = n.assignType.toOption.bind fun m ↦ m.assignDimensionality.toOption := by
  rw [resolve]
  simp only [Progress.result?_andThen, Progress.result?_ofExcept]

/-- A leaf resolves if it has a type first and a dimensionality then. -/
theorem result?_resolve_eq_some_iff {n m : Node} : n.resolve.result? = some m ↔
    ∃ k, n.assignType = .ok k ∧ k.assignDimensionality = .ok m := by
  simp only [result?_resolve, Option.bind_eq_some_iff, toOption_eq_some_iff]

theorem extent_onto (l : List Nat) : (Mapping.onto l).extent = l.max?.elim 0 Text.succCount := by
  rw [Mapping.extent, Mapping.greatest?, Mapping.axes_onto]
  cases l.max? <;> rfl

private theorem resolve_of_unpinned (lookup : Lookup) {n : Node} (h : n.Open)
    (hpin : n.pin? = none) : n.resolve.result? = n.resolvedLeaf? lookup := by
  rw [result?_resolve, resolvedLeaf?, settledRank?, settledType?, hpin,
    toOption_assignType_of_open h, toOption_resolvedType]
  cases htarget : n.target? with
  | none =>
    by_cases hpath : n.path = resultKeyword
    · rw [if_pos hpath, Option.bind_some, toOption_assignDimensionality, h.2, htarget]
      rfl
    · rw [if_neg hpath]
      rfl
  | some target =>
    rw [Option.bind_some, Option.bind_some]
    by_cases hpath : n.path = resultKeyword
    · rw [if_pos hpath, if_pos hpath, Option.bind_some, toOption_assignDimensionality, h.2, htarget,
        h.1, Option.bind_some]
      simp [hpin]
    · rw [if_neg hpath, if_neg hpath, Option.bind_map]
      refine Option.bind_congr fun t ht ↦ ?_
      rw [ht, Option.bind_some, Function.comp_apply, toOption_assignDimensionality]
      simp [h.1, hpin]

private theorem resolve_of_axes (lookup : Lookup) {n : Node} {l : List Nat}
    (hpin : n.pin? = some (.axes l)) :
    ((n.pinned? lookup).bind fun m ↦ m.resolve.result?) = n.resolvedLeaf? lookup := by
  have hreduce : ((Pin.axes l).vectorType lookup n.marshall).toOption =
      (n.marshall.reduce l.length).toOption := by
    rw [Pin.vectorType]
    cases n.marshall.reduce l.length <;> rfl
  rw [pinned?, hpin]
  change ((n.pin lookup (.axes l)).toOption.bind fun m ↦ _) = _
  rw [toOption_pin, hreduce, resolvedLeaf?, settledRank?, settledType?, hpin, Option.bind_map]
  refine Option.bind_congr fun t ht ↦ ?_
  rw [Function.comp_apply, result?_resolve, toOption_assignType_of_isResolved rfl]
  change ((n.marshall.reduce l.length).toOption.map _).bind _ = _
  rw [ht, Option.map_some, Option.bind_some, toOption_assignDimensionality]
  simp [Pin.mapping, extent_onto, ht]

private theorem resolve_of_named (lookup : Lookup) {n : Node} (h : n.Open) {p : Pin}
    (hp : p.isAxes = false) (hpin : n.pin? = some p) :
    ((n.pinned? lookup).bind fun m ↦ m.resolve.result?) = n.resolvedLeaf? lookup := by
  have htype : n.settledType? lookup = p.namedType? lookup := by
    rw [settledType?, hpin]
    cases p with
    | axes l => cases hp
    | _ => rfl
  have hrank : n.settledRank? lookup =
      (p.namedType? lookup).bind fun t ↦ (n.marshall.dimensionality t).toOption := by
    rw [settledRank?, htype, hpin]
    cases p with
    | axes l => cases hp
    | _ => rfl
  have hmapping : p.mapping n.mapping = .unresolved := by
    rw [← h.1]
    cases p with
    | axes l => cases hp
    | _ => rfl
  rw [pinned?, hpin]
  change ((n.pin lookup p).toOption.bind fun m ↦ _) = _
  rw [toOption_pin, toOption_vectorType lookup n.marshall hp, resolvedLeaf?, hrank, htype, hpin,
    Option.bind_map]
  refine Option.bind_congr fun t ht ↦ ?_
  rw [Function.comp_apply, result?_resolve, hmapping, assignType_of_vectorType? rfl rfl, ht,
    Option.bind_some]
  change (assignDimensionality _).toOption = _
  rw [toOption_assignDimensionality]
  cases p with
  | axes l => cases hp
  | _ => rfl

/-- **Pinning and resolving a leaf** depend on the leaf alone. -/
theorem pinned?_bind_resolve (lookup : Lookup) {n : Node} (h : n.Open) :
    ((n.pinned? lookup).bind fun m ↦ m.resolve.result?) = n.resolvedLeaf? lookup := by
  cases hpin : n.pin? with
  | none =>
    rw [pinned?_of_pin?_eq_none hpin, Option.bind_some]
    exact resolve_of_unpinned lookup h hpin
  | some p =>
    cases hp : p.isAxes with
    | false => exact resolve_of_named lookup h hp hpin
    | true =>
      cases p with
      | axes l => exact resolve_of_axes lookup hpin
      | _ => cases hp

/-- A dictionary's own node after pinning and resolving. -/
def resolvedContainer? (lookup : Lookup) (fields : List Variable) (n : Node) : Option Node :=
  (n.settledContainerType? lookup).map fun t ↦
    { n with
      vectorType? := some t
      dimensionality? := some (greatest (fields.filterMap (·.node.dimensionality?))) }

theorem resolvedContainer?_eq_some {lookup : Lookup} {fields : List Variable} {n m : Node}
    (h : n.resolvedContainer? lookup fields = some m) :
    ∃ t, m = { n with
      vectorType? := some t
      dimensionality? := some (greatest (fields.filterMap (·.node.dimensionality?))) } := by
  obtain ⟨t, -, rfl⟩ := Option.map_eq_some_iff.mp h
  exact ⟨t, rfl⟩

theorem toOption_resolveContainer (fields : List Variable) (n : Node) :
    (n.resolveContainer fields).toOption =
      (n.vectorType?.or n.resolvedType.toOption).map fun t ↦
        { n with
          vectorType? := some t
          dimensionality? := some (greatest (fields.filterMap (·.node.dimensionality?))) } := by
  rw [resolveContainer]
  cases n.vectorType? with
  | some t => rfl
  | none =>
    rw [Option.none_or, Option.map_eq_bind]
    exact toOption_bind _ _

theorem resolveContainer_eq_ok_iff {fields : List Variable} {n m : Node} :
    n.resolveContainer fields = .ok m ↔
      ∃ t, n.vectorType?.or n.resolvedType.toOption = some t ∧
        { n with
          vectorType? := some t
          dimensionality? := some (greatest (fields.filterMap (·.node.dimensionality?))) } = m := by
  rw [← toOption_eq_some_iff, toOption_resolveContainer, Option.map_eq_some_iff]

/-- **Pinning and resolving a dictionary's own node** depends on the node and on its fields'
dimensionalities. -/
theorem pinned?_bind_resolveContainer (lookup : Lookup) (fields : List Variable) {n : Node}
    (h : n.Open) (hpin : ∀ l, n.pin? ≠ some (.axes l)) :
    ((n.pinned? lookup).bind fun m ↦ (m.resolveContainer fields).toOption) =
      n.resolvedContainer? lookup fields := by
  rw [resolvedContainer?, settledContainerType?]
  cases hp : n.pin? with
  | none =>
    rw [pinned?_of_pin?_eq_none hp, Option.bind_some, toOption_resolveContainer, h.2,
      Option.none_or, toOption_resolvedType, hp]
  | some p =>
    have hnamed : p.isAxes = false := by
      cases p with
      | axes l => exact absurd hp (hpin l)
      | _ => rfl
    have hmapping : p.mapping n.mapping = n.mapping := by
      cases p with
      | axes l => cases hnamed
      | _ => rfl
    rw [pinned?, hp]
    change ((n.pin lookup p).toOption.bind fun m ↦ _) = _
    rw [toOption_pin, toOption_vectorType lookup n.marshall hnamed, hmapping, Option.bind_map,
      Option.map_eq_bind]
    refine Option.bind_congr fun t _ ↦ ?_
    rw [Function.comp_apply, toOption_resolveContainer]
    rfl

end Node

namespace Node

theorem differentiate_of_vectorType? {mode : CallMode} {n : Node} {t : KernelType}
    (h : n.vectorType? = some t) : n.differentiate mode = .ok (n.granted mode t) := by
  have ht : n.vectorType = .ok t := by rw [vectorType, h]
  rw [differentiate, ht, granted, ← h]
  rfl

/-- The leaf with the last axes of the dispatch, unless it has axes already. -/
def placed (rank gridRank : Nat) (n : Node) : Node :=
  if n.mapping.isResolved then n
  else { n with mapping := .onto (List.range' (gridRank - rank) rank) }

theorem vectorType?_placed (rank gridRank : Nat) (n : Node) :
    (n.placed rank gridRank).vectorType? = n.vectorType? := by
  rw [placed]
  split <;> rfl

theorem dimensionality?_placed (rank gridRank : Nat) (n : Node) :
    (n.placed rank gridRank).dimensionality? = n.dimensionality? := by
  rw [placed]
  split <;> rfl

theorem pin?_placed (rank gridRank : Nat) (n : Node) : (n.placed rank gridRank).pin? = n.pin? := by
  rw [placed]
  split <;> rfl

theorem isResolved_placed (rank gridRank : Nat) (n : Node) :
    (n.placed rank gridRank).mapping.isResolved := by
  rw [placed]
  split
  · assumption
  · rfl

/-- **When a leaf can be aligned.** Strict broadcasting does not refuse its dimensionality, and it has
a mapping or does not reach beyond the dispatch. -/
theorem align_eq_ok_iff {dispatch : Dispatch} {n m : Node} : n.align dispatch = .ok m ↔
    ∃ d, n.dimensionality? = some d ∧
      ¬ (dispatch.strict && n.pin?.isNone && d != 0 && d != dispatch.rank) ∧
      (n.mapping.isResolved ∨ d ≤ dispatch.rank) ∧ n.placed d dispatch.rank = m := by
  rw [align]
  cases hd : n.dimensionality? with
  | none => simp
  | some d =>
    simp only [Option.some.injEq, exists_eq_left']
    by_cases hrefused : dispatch.strict && n.pin?.isNone && d != 0 && d != dispatch.rank
    · simp [hrefused]
    by_cases hmapping : n.mapping.isResolved
    · simp [hrefused, hmapping, placed]
    by_cases hle : d ≤ dispatch.rank
    · simp [hrefused, hmapping, hle, hd, placed, Mapping.trailing?]
    · simp [hrefused, hmapping, hle, Mapping.trailing?]

/-- A leaf after aligning and differentiating, its dimensionality being no greater than the rank. -/
def finishedLeaf? (settings : Settings) (gridRank : Nat) (n : Node) : Option Node :=
  n.dimensionality?.bind fun rank ↦
    if settings.strict ∧ n.pin? = none ∧ rank ≠ 0 ∧ rank ≠ gridRank then none
    else ((n.placed rank gridRank).differentiate settings.mode).toOption

theorem align_of_rank_le {dispatch : Dispatch} {rank : Nat} {n : Node}
    (h : n.dimensionality? = some rank) (hle : rank ≤ dispatch.rank) :
    n.align dispatch =
      if dispatch.strict && n.pin?.isNone && rank != 0 && rank != dispatch.rank then
        .error ((Fault.partialRank n.path rank dispatch.rank).blame n.path)
      else .ok (n.placed rank dispatch.rank) := by
  rw [align, h, placed, apply_ite Except.ok]
  simp only [Mapping.trailing?, if_pos hle, h]

theorem align_bind_differentiate {settings : Settings} {gridRank rank : Nat} {n : Node}
    (h : n.dimensionality? = some rank) (hle : rank ≤ gridRank) :
    ((n.align ⟨gridRank, settings.strict⟩).toOption.bind fun m ↦
      (m.differentiate settings.mode).toOption) = n.finishedLeaf? settings gridRank := by
  have halign := @align_of_rank_le ⟨gridRank, settings.strict⟩ rank n h hle
  have hif : (settings.strict && n.pin?.isNone && rank != 0 && rank != gridRank) = true ↔
      settings.strict ∧ n.pin? = none ∧ rank ≠ 0 ∧ rank ≠ gridRank := by
    simp [and_assoc]
  rw [halign, finishedLeaf?, h, Option.bind_some]
  by_cases hstrict : settings.strict ∧ n.pin? = none ∧ rank ≠ 0 ∧ rank ≠ gridRank
  · rw [if_pos hstrict, if_pos (hif.mpr hstrict)]
    rfl
  · rw [if_neg hstrict, if_neg (mt hif.mp hstrict)]
    rfl

theorem settledLeaf?_eq_bind (lookup : Lookup) (settings : Settings) (gridRank : Nat) (n : Node) :
    n.settledLeaf? lookup settings gridRank =
      (n.resolvedLeaf? lookup).bind (finishedLeaf? settings gridRank) := by
  rw [settledLeaf?, resolvedLeaf?, Option.bind_assoc]
  refine Option.bind_congr fun t _ ↦ ?_
  rw [Option.bind_map]
  refine Option.bind_congr fun rank _ ↦ ?_
  rw [Function.comp_apply, finishedLeaf?, Option.bind_some]
  by_cases hstrict : settings.strict ∧ n.pin? = none ∧ rank ≠ 0 ∧ rank ≠ gridRank
  · rw [if_pos hstrict, if_pos hstrict]
  · rw [if_neg hstrict, if_neg hstrict, differentiate_of_vectorType? (vectorType?_placed _ _ _),
      settledMapping]
    rcases n with ⟨_, _, _, _, _, _, _, pin?, _, _, _⟩
    rcases pin? with _ | ⟨_ | _ | _ | _⟩ <;> rfl

theorem settledContainer?_eq_bind (lookup : Lookup) (mode : CallMode) (fields : List Variable)
    (n : Node) : n.settledContainer? lookup mode fields =
      (n.resolvedContainer? lookup fields).bind fun m ↦ (m.differentiate mode).toOption := by
  rw [settledContainer?, resolvedContainer?, Option.map_eq_bind, Option.bind_map]
  refine Option.bind_congr fun t _ ↦ ?_
  rw [Function.comp_apply, Function.comp_apply, differentiate_of_vectorType? rfl]
  rfl

theorem dimensionality?_of_finishedLeaf? {settings : Settings} {gridRank : Nat} {n m : Node}
    (h : n.finishedLeaf? settings gridRank = some m) : m.dimensionality? = n.dimensionality? := by
  obtain ⟨rank, -, h⟩ := Option.bind_eq_some_iff.mp h
  split at h
  · cases h
  · obtain ⟨t, -, h⟩ := bind_eq_ok_iff.mp (toOption_eq_some_iff.mp h)
    cases h
    exact dimensionality?_placed rank gridRank n

theorem dimensionality?_of_differentiate {mode : CallMode} {n m : Node}
    (h : n.differentiate mode = .ok m) : m.dimensionality? = n.dimensionality? := by
  obtain ⟨t, -, h⟩ := bind_eq_ok_iff.mp h
  cases h
  rfl

end Node

/-! ## The passes, call by call -/

namespace Variable

/-- A dictionary is never pinned to axes. -/
theorem pin?_of_designate? {o? : Option Override} {v w : Variable}
    (hv : ∀ n ∈ v.nodes, n.pin? = none) (h : v.designate? o? = some w) {m : Node}
    {gs : List Variable} (hm : dict m gs ∈ w.parts) (l : List Nat) : m.pin? ≠ some (.axes l) := by
  induction v generalizing o? w with
  | leaf n =>
    rcases o? with _ | (p | entries) <;> cases h <;> cases mem_parts_leaf.mp hm
  | dict n fs ih =>
    obtain ⟨k, gs', rfl, hk, hfg⟩ := designate?_dict_eq_some h
    rcases mem_parts_dict.mp hm with heq | ⟨g, hg, hmg⟩
    · cases heq
      rcases hk with rfl | ⟨p, hp, rfl⟩
      · rw [hv m (node_mem_nodes_dict m fs)]
        simp
      · rintro ⟨⟩
        cases hp
    · obtain ⟨f, hf, hfg⟩ := exists_of_forall₂_right hfg hg
      exact ih f hf (fun n hn ↦ hv n (mem_nodes_of_field hf hn)) hfg hmg

end Variable

namespace Call

/-- Every variable of a call with its pins stems from the variable that they were recorded at. -/
theorem exists_designate?_of_mem_roots {o : Vectorization} {c c' : Call}
    (h : c.designate? o = some c') {w : Variable} (hw : w ∈ c'.roots) :
    ∃ v ∈ c.roots, ∃ o?, v.designate? o? = some w := by
  obtain ⟨hargs, hkwargs, -⟩ := withVariables?_eq_some_iff.mp h
  rcases List.mem_append.mp hw with hw | hw
  · obtain ⟨v, hv, o?, hvw⟩ := exists_of_mem_designatePositional? hargs hw
    exact ⟨v, List.mem_append_left _ hv, o?, hvw⟩
  · obtain ⟨v, hv, hvw⟩ := exists_of_mem_mapM hkwargs hw
    exact ⟨v, List.mem_append_right _ hv, _, hvw⟩

/-- What a call is before its pins are applied: no node has a mapping or a type, and no dictionary
is pinned to axes. -/
def Ready (c : Call) : Prop :=
  ∀ v ∈ c.roots, (∀ n ∈ v.nodes, n.Open) ∧
    ∀ n gs, Variable.dict n gs ∈ v.parts → ∀ l, n.pin? ≠ some (.axes l)

theorem undecided_of_bind {registry : MarshallRegistry} {a : Arguments} {f : Function}
    {c c' : Call} (h : ofArguments registry a = .ok c) (hbind : (c.bind f).result? = some c') :
    ∀ v ∈ c'.roots, ∀ n ∈ v.nodes, n.Undecided := by
  obtain ⟨-, hrel, -⟩ := bound_of_bind (name_of_mem_args h) hbind
  refine Variable.forall_nodes_of_related hrel (fun _ _ ↦ Node.Rebound.undecided) ?_
  exact fun v hv n hn ↦ (fresh_of_ofArguments h v hv n hn).undecided

theorem ready_of_designate? {o : Vectorization} {c c' : Call}
    (hc : ∀ v ∈ c.roots, ∀ n ∈ v.nodes, n.Undecided) (h : c.designate? o = some c') :
    c'.Ready := by
  intro w hw
  obtain ⟨v, hv, o?, hvw⟩ := exists_designate?_of_mem_roots h hw
  refine ⟨?_, fun n gs ↦ Variable.pin?_of_designate? (fun n hn ↦ (hc v hv n hn).2.2) hvw⟩
  refine (Variable.related_of_designate? hvw).forall_nodes (fun _ _ ↦ Node.Open.of_repinned) ?_
  exact fun n hn ↦ ⟨(hc v hv n hn).1, (hc v hv n hn).2.1⟩

/-- A call after pinning and resolving. -/
def resolved? (lookup : Lookup) (c : Call) : Option Call :=
  c.mapM? (Variable.walk? (Node.resolvedLeaf? lookup) (Node.resolvedContainer? lookup))

theorem pinned?_bind_resolve (lookup : Lookup) {c : Call} (h : c.Ready) :
    ((c.mapM? (Variable.walk? (Node.pinned? lookup) fun _ ↦ Node.pinned? lookup)).bind fun c ↦
      c.resolve.result?) = c.resolved? lookup := by
  simp only [result?_resolve]
  rw [mapM?_bind_mapM?, resolved?]
  refine mapM?_congr fun v hv ↦ ?_
  rw [Variable.walk?_bind_walk? fun _ _ _ _ ↦ rfl]
  obtain ⟨hopen, hpin⟩ := h v hv
  refine Variable.walk?_congr (fun n hn ↦ ?_) fun n gs hn fs ↦ ?_
  · exact Node.pinned?_bind_resolve lookup (hopen n (Variable.mem_nodes_of_mem_leaves hn))
  · exact Node.pinned?_bind_resolveContainer lookup fs (hopen n (Variable.node_mem_nodes hn))
      (hpin n gs hn)

/-- **Preparing a call** resolves each of its nodes on its own. -/
theorem toOption_prepare (lookup : Lookup) (f : Function) (a : Arguments) (o : Vectorization) :
    (prepare lookup f a o).toOption = (designated? lookup f a o).bind (resolved? lookup) := by
  rw [prepare, toOption_bind, designated?, Option.bind_assoc]
  refine Option.bind_congr fun c hc ↦ ?_
  rw [toOption_bind, Progress.toOption_toExcept, Option.bind_assoc]
  refine Option.bind_congr fun c₁ hc₁ ↦ ?_
  have hc := toOption_eq_some_iff.mp hc
  have hundecided := undecided_of_bind hc hc₁
  have hnames : (c₁.kwargs.map (·.name)).Nodup := by
    rw [(bound_of_bind (name_of_mem_args hc) hc₁).2.2]
    exact nodup_keywords hc
  rw [toOption_bind, Progress.toOption_toExcept,
    result?_vectorize (fun v hv n hn ↦ (hundecided v hv n hn).2.2) hnames]
  by_cases hmatches : o.Matches c₁
  · rw [if_pos hmatches, if_pos hmatches, Option.bind_assoc]
    refine Option.bind_congr fun c₂ hc₂ ↦ ?_
    exact pinned?_bind_resolve lookup (ready_of_designate? hundecided hc₂)
  · rw [if_neg hmatches, if_neg hmatches]
    rfl

theorem ranked_of_resolved? {lookup : Lookup} {c c' : Call} (h : c.resolved? lookup = some c') :
    ∀ v ∈ c'.roots, v.Ranked := by
  intro w hw
  obtain ⟨v, -, hvw⟩ := exists_of_mem_mapM (roots_of_mapM? h) hw
  refine Variable.ranked_of_walk? (fun n m hm ↦ ?_) (fun fs n m hm ↦ ?_) hvw
  · obtain ⟨_, t, rank, -, rfl⟩ := Node.resolvedLeaf?_eq_some hm
    rfl
  · obtain ⟨t, rfl⟩ := Node.resolvedContainer?_eq_some hm
    rfl

theorem leaves_of_resolved? {lookup : Lookup} {c c' : Call} (h : c.resolved? lookup = some c') :
    List.Forall₂ (fun n m ↦ n.resolvedLeaf? lookup = some m) c.leaves c'.leaves :=
  leaves_of_mapM? h

/-- The rank of the dispatch can be had before any pass has run. -/
theorem settledRank?_of_resolved? {lookup : Lookup} {c c' : Call}
    (h : c.resolved? lookup = some c') : c.settledRank? lookup = some c'.gridRank := by
  rw [settledRank?, gridRank_eq_greatest (ranked_of_resolved? h), Option.map_eq_some_iff]
  refine ⟨_, ?_, rfl⟩
  have hleaves := leaves_of_resolved? h
  generalize c.leaves = ns at hleaves
  generalize c'.leaves = ms at hleaves
  clear h
  induction hleaves with
  | nil => rfl
  | @cons n m ns ms hnm _ ih =>
    obtain ⟨_, t, rank, hrank, rfl⟩ := Node.resolvedLeaf?_eq_some hnm
    rw [option_mapM_cons, hrank, ih]
    rfl

/-- A call after aligning and differentiating. -/
def finished? (settings : Settings) (gridRank : Nat) (c : Call) : Option Call :=
  c.mapM? (Variable.walk? (Node.finishedLeaf? settings gridRank)
    fun _ n ↦ (n.differentiate settings.mode).toOption)

/-- **Aligning never exceeds the rank,** which is that of the leaf with the most dimensions. -/
theorem align_bind_differentiate {settings : Settings} {c : Call} (h : ∀ v ∈ c.roots, v.Ranked) :
    ((c.align ⟨c.gridRank, settings.strict⟩).result?.bind fun c ↦
      (c.differentiate settings.mode).result?) = c.finished? settings c.gridRank := by
  simp only [result?_align, result?_differentiate]
  rw [mapM?_bind_mapM?, finished?]
  refine mapM?_congr fun v hv ↦ ?_
  rw [Variable.walk?_bind_walk? fun _ _ _ _ ↦ rfl]
  refine Variable.walk?_congr (fun n hn ↦ ?_) fun n gs hn fs ↦ rfl
  have hleaf : n ∈ c.leaves := List.mem_flatMap.mpr ⟨v, hv, hn⟩
  cases hrank : n.dimensionality? with
  | none =>
    rw [Node.finishedLeaf?, Node.align, hrank]
    rfl
  | some rank => exact Node.align_bind_differentiate hrank (rank_le_gridRank h hleaf hrank)

/-- Finishing keeps the dimensionalities of variables. -/
theorem ranks_of_finished {settings : Settings} {gridRank : Nat} {vs ws : List Variable}
    (h : vs.mapM (Variable.walk? (Node.finishedLeaf? settings gridRank)
      fun _ n ↦ (n.differentiate settings.mode).toOption) = some ws) :
    ws.filterMap (·.node.dimensionality?) = vs.filterMap (·.node.dimensionality?) := by
  have hvw := mapM_eq_some_iff.mp h
  clear h
  induction hvw with
  | nil => rfl
  | @cons v w vs ws hvw _ ih =>
    have hrank : w.node.dimensionality? = v.node.dimensionality? := by
      rcases Variable.node_walk? hvw with hn | ⟨gs, hn⟩
      · exact Node.dimensionality?_of_finishedLeaf? hn
      · exact Node.dimensionality?_of_differentiate (toOption_eq_some_iff.mp hn)
    rw [List.filterMap_cons, List.filterMap_cons, ih, hrank]

/-- Resolving and finishing are one walk, since finishing keeps dimensionalities. -/
theorem resolved?_bind_finished? (lookup : Lookup) (settings : Settings) (gridRank : Nat)
    (c : Call) : (c.resolved? lookup).bind (finished? settings gridRank) =
      c.mapM? (Variable.settled? lookup settings gridRank) := by
  rw [resolved?]
  change (Option.bind _ (mapM? _)) = _
  rw [mapM?_bind_mapM?]
  refine mapM?_congr fun v _ ↦ ?_
  rw [Variable.walk?_bind_walk?, Variable.settled?]
  · refine Variable.walk?_congr (fun n _ ↦ ?_) fun n _ _ fs ↦ ?_
    · exact (Node.settledLeaf?_eq_bind lookup settings gridRank n).symm
    · exact (Node.settledContainer?_eq_bind lookup settings.mode fs n).symm
  · intro fs ws n hws
    rw [Node.resolvedContainer?, Node.resolvedContainer?, ranks_of_finished hws]

/-- Resolving, aligning with the rank that follows, and differentiating settle each node at once. -/
theorem resolved?_bind_passes (lookup : Lookup) (settings : Settings) (c : Call) :
    ((c.resolved? lookup).bind fun c ↦ ((c.align ⟨c.gridRank, settings.strict⟩).result?.bind
      fun c' ↦ (c'.differentiate settings.mode).result?).map (c.gridRank, ·)) =
      (c.settledRank? lookup).bind fun gridRank ↦
        (c.mapM? (Variable.settled? lookup settings gridRank)).map (gridRank, ·) := by
  simp only [← resolved?_bind_finished?]
  cases hc : c.resolved? lookup with
  | none =>
    rw [Option.bind_none]
    cases c.settledRank? lookup <;> rfl
  | some c' =>
    rw [settledRank?_of_resolved? hc, Option.bind_some, Option.bind_some, Option.bind_some,
      align_bind_differentiate (ranked_of_resolved? hc)]

theorem prepare_eq_ok_iff {lookup : Lookup} {f : Function} {a : Arguments} {o : Vectorization}
    {c' : Call} : prepare lookup f a o = .ok c' ↔
      ∃ c, designated? lookup f a o = some c ∧ c.resolved? lookup = some c' := by
  rw [← toOption_eq_some_iff, toOption_prepare, Option.bind_eq_some_iff]

/-- What it takes for a build to go through, and what it leaves. -/
theorem build_eq_ok_iff {lookup : Lookup} {settings : Settings} {f : Function} {a : Arguments}
    {o : Vectorization} {b : BuiltCall} :
    build lookup settings f a o = .ok b ↔ ∃ c, designated? lookup f a o = some c ∧
      c.settledRank? lookup = some b.gridRank ∧
        c.mapM? (Variable.settled? lookup settings b.gridRank) = some b.call ∧
          ∃ m, b.call.emit b.gridRank = .ok m ∧ b.code = m.text := by
  have hpasses : ∀ (c : Call) (gridRank : Nat) (c' : Call),
      (∃ c₁, c.resolved? lookup = some c₁ ∧
        ∃ c₂, (c₁.align ⟨c₁.gridRank, settings.strict⟩).result? = some c₂ ∧
          (c₂.differentiate settings.mode).result? = some c' ∧ c₁.gridRank = gridRank) ↔
      c.settledRank? lookup = some gridRank ∧
        c.mapM? (Variable.settled? lookup settings gridRank) = some c' := by
    intro c gridRank c'
    have h := congrArg (· = some (gridRank, c')) (resolved?_bind_passes lookup settings c)
    simpa [Option.bind_eq_some_iff, Option.map_eq_some_iff] using h
  constructor
  · intro h
    obtain ⟨c₁, hc₁, h⟩ := bind_eq_ok_iff.mp h
    obtain ⟨c₂, hc₂, h⟩ := bind_eq_ok_iff.mp h
    obtain ⟨c₃, hc₃, h⟩ := bind_eq_ok_iff.mp h
    obtain ⟨m, hm, h⟩ := bind_eq_ok_iff.mp h
    cases h
    obtain ⟨c, hc, hresolved⟩ := prepare_eq_ok_iff.mp hc₁
    rw [← Progress.result?_eq_some_iff] at hc₂ hc₃
    obtain ⟨hrank, hsettled⟩ := (hpasses c c₁.gridRank c₃).mp
      ⟨c₁, hresolved, c₂, hc₂, hc₃, rfl⟩
    exact ⟨c, hc, hrank, hsettled, m, hm, rfl⟩
  · rintro ⟨c, hc, hrank, hsettled, m, hm, hcode⟩
    obtain ⟨c₁, hresolved, c₂, hc₂, hc₃, hgrid⟩ :=
      (hpasses c b.gridRank b.call).mpr ⟨hrank, hsettled⟩
    rw [Progress.result?_eq_some_iff] at hc₂ hc₃
    refine bind_eq_ok_iff.mpr ⟨c₁, prepare_eq_ok_iff.mpr ⟨c, hc, hresolved⟩, ?_⟩
    refine bind_eq_ok_iff.mpr ⟨c₂, hc₂, bind_eq_ok_iff.mpr ⟨b.call, hc₃, ?_⟩⟩
    rw [hgrid]
    refine bind_eq_ok_iff.mpr ⟨m, hm, ?_⟩
    rw [← hcode]
    rfl

/-- **The passes compute the outcome.** -/
theorem toOption_build (lookup : Lookup) (settings : Settings) (f : Function) (a : Arguments)
    (o : Vectorization) :
    (build lookup settings f a o).toOption = outcome? lookup settings f a o := by
  refine Option.ext fun b ↦ ?_
  rw [toOption_eq_some_iff, build_eq_ok_iff, outcome?, Option.bind_eq_some_iff]
  refine exists_congr fun c ↦ and_congr_right fun _ ↦ ?_
  rw [Option.bind_eq_some_iff]
  constructor
  · rintro ⟨hrank, hsettled, m, hm, hcode⟩
    refine ⟨b.gridRank, hrank, Option.bind_eq_some_iff.mpr ⟨b.call, hsettled, ?_⟩⟩
    refine Option.map_eq_some_iff.mpr ⟨m, toOption_eq_some_iff.mpr hm, ?_⟩
    rw [← hcode]
  · rintro ⟨gridRank, hrank, h⟩
    obtain ⟨c', hsettled, h⟩ := Option.bind_eq_some_iff.mp h
    obtain ⟨m, hm, rfl⟩ := Option.map_eq_some_iff.mp h
    exact ⟨hrank, hsettled, m, toOption_eq_some_iff.mp hm, rfl⟩

end Call

end KernelCall
