import KernelCall.Call.Align
import KernelCall.Call.Differentiate
import KernelCall.Call.Resolve
import KernelCall.Call.Vectorize
import KernelCall.Proofs.Variable.Walk

/-!
# Passes as walks

Resolving, aligning and differentiating are walks over the variables of a call. Overriding is one
too once the pins are known: `designate?` records at each node the pin that the override tree means
for it and looks at nothing but names, and the pins are then applied node by node.

Keyword overrides are applied one after the other, each to the variable it names. Since neither the
names of the variables nor those of the overrides repeat, it comes to the same to give each variable
the first override of its name.
-/

namespace KernelCall

namespace Variable

/-! ## Resolving, aligning, differentiating -/

theorem result?_resolve (v : Variable) :
    v.resolve.result? =
      v.walk? (fun n ↦ n.resolve.result?) fun fs n ↦ (n.resolveContainer fs).toOption := by
  induction v with
  | leaf n => rw [resolve, Progress.result?_map, walk?_leaf]
  | dict n fs ih =>
    rw [resolve, Progress.result?_andThen, resolveFields_eq_traverse, Progress.result?_traverse,
      walk?_dict, mapM_congr ih]
    simp only [Progress.result?_map, Progress.result?_ofExcept]

theorem result?_align (g : Dispatch) (v : Variable) :
    (v.align g).result? = v.walk? (fun n ↦ (n.align g).toOption) fun _ n ↦ some n := by
  induction v with
  | leaf n => rw [align, Progress.result?_map, Progress.result?_ofExcept, walk?_leaf]
  | dict n fs ih =>
    rw [align, Progress.result?_map, alignFields_eq_traverse, Progress.result?_traverse,
      walk?_dict, mapM_congr ih, Option.map_eq_bind]
    rfl

theorem result?_differentiate (mode : CallMode) (v : Variable) :
    (v.differentiate mode).result? =
      v.walk? (fun n ↦ (n.differentiate mode).toOption)
        fun _ n ↦ (n.differentiate mode).toOption := by
  induction v with
  | leaf n => rw [differentiate, Progress.result?_map, Progress.result?_ofExcept, walk?_leaf]
  | dict n fs ih =>
    rw [differentiate, Progress.result?_andThen, Progress.result?_ofExcept, walk?_dict]
    simp only [Progress.result?_map, differentiateFields_eq_traverse, Progress.result?_traverse,
      mapM_congr ih, Option.map_eq_bind]
    exact Option.bind_comm _ _

end Variable

/-! ## Pinning -/

namespace Override

theorem entry?_cons (e : String × Override) (es : List (String × Override)) (key : String) :
    entry? (e :: es) key = if e.1 = key then some e.2 else entry? es key := by
  unfold entry?
  rw [List.find?_cons]
  by_cases h : e.1 = key
  · rw [beq_iff_eq.mpr h, if_pos h, Option.map_some]
  · rw [beq_eq_false_iff_ne.mpr h, if_neg h]

theorem entry?_eq_none_iff {es : List (String × Override)} {key : String} :
    entry? es key = none ↔ key ∉ es.map (·.1) := by
  induction es with
  | nil => exact ⟨fun _ ↦ List.not_mem_nil, fun _ ↦ rfl⟩
  | cons e es ih =>
    rw [entry?_cons, List.map_cons, List.mem_cons, not_or, ← ih]
    by_cases h : e.1 = key
    · simp [h]
    · rw [if_neg h, eq_comm]
      simp [Ne.symm h]

/-- Which key is unknown is a matter of the fields' names. -/
theorem unknownKey?_congr {entries : List (String × Override)} {fs gs : List Variable}
    (h : gs.map (·.name) = fs.map (·.name)) : unknownKey? entries gs = unknownKey? entries fs := by
  have hnames : ∀ (vs : List Variable) (key : String),
      vs.any (·.name == key) = (vs.map (·.name)).any (· == key) := fun vs key ↦ by
    rw [List.any_map]
    rfl
  simp only [unknownKey?, hnames, h]

end Override

namespace Node

/-- A pin that can be applied sets the vector type, and the mapping if it lists axes. -/
theorem pin_eq_ok_iff {lookup : Lookup} {p : Pin} {n m : Node} :
    n.pin lookup p = .ok m ↔ ∃ t, p.vectorType lookup n.marshall = .ok t ∧
      m = { n with mapping := p.mapping n.mapping, vectorType? := some t, pin? := some p } := by
  rw [pin]
  cases p.vectorType lookup n.marshall with
  | error reason => simp
  | ok t => simp [eq_comm]

theorem name_of_pin {lookup : Lookup} {p : Pin} {n m : Node} (h : n.pin lookup p = .ok m) :
    m.name = n.name := by
  obtain ⟨t, -, rfl⟩ := pin_eq_ok_iff.mp h
  rfl

theorem pinContainer_eq_ok {lookup : Lookup} {entries : List (String × Override)} {n m : Node}
    (h : n.pinContainer lookup entries = .ok m) :
    m = n ∨ ∃ p : Pin, p.isAxes = false ∧ n.pin lookup p = .ok m := by
  rw [pinContainer] at h
  split at h
  · cases h
    exact Or.inl rfl
  · cases h
  · cases h
  · next p hp _ => exact Or.inr ⟨p, by cases p <;> simp_all [Pin.isAxes], h⟩

theorem name_of_pinContainer {lookup : Lookup} {entries : List (String × Override)} {n m : Node}
    (h : n.pinContainer lookup entries = .ok m) : m.name = n.name := by
  rcases pinContainer_eq_ok h with rfl | ⟨p, -, hp⟩
  · rfl
  · exact name_of_pin hp

end Node

/-! ## Designating pins -/

/-- Records the pin of the container's own entry, which must name a type. -/
def Node.designateContainer? (entries : List (String × Override)) (n : Node) : Option Node :=
  match Override.entry? entries Override.containerKey with
  | none => some n
  | some (.fields _) => none
  | some (.pin p) => if p.isAxes then none else some { n with pin? := some p }

/-- Applies the pin that is recorded at a node. -/
def Node.pinned? (lookup : Lookup) (n : Node) : Option Node :=
  match n.pin? with
  | none => some n
  | some p => (n.pin lookup p).toOption

theorem Node.pinned?_of_pin?_eq_none {lookup : Lookup} {n : Node} (h : n.pin? = none) :
    n.pinned? lookup = some n := by
  rw [pinned?, h]

theorem Node.pinned?_designate (lookup : Lookup) (p : Pin) (n : Node) :
    { n with pin? := some p }.pinned? lookup = (n.pin lookup p).toOption := by
  change (Node.pin lookup p { n with pin? := some p }).toOption = _
  rw [Node.pin, Node.pin]

theorem Node.toOption_pinContainer {lookup : Lookup} {entries : List (String × Override)} {n : Node}
    (h : n.pin? = none) :
    (n.pinContainer lookup entries).toOption =
      (n.designateContainer? entries).bind (Node.pinned? lookup) := by
  rw [pinContainer, designateContainer?]
  rcases Override.entry? entries Override.containerKey with _ | (p | fs)
  · rw [Option.bind_some, pinned?_of_pin?_eq_none h]
    rfl
  · cases p with
    | axes l => rfl
    | type t => exact (pinned?_designate lookup (.type t) n).symm
    | typeName name => exact (pinned?_designate lookup (.typeName name) n).symm
    | hostKind kind => exact (pinned?_designate lookup (.hostKind kind) n).symm
  · rfl

namespace Variable

mutual

/-- Records at every node the pin that an override means for it, and changes nothing else. A
dictionary takes an override for its fields only, a leaf takes a pin; where keys repeat the first
entry counts. -/
def designate? (o? : Option Override) : Variable → Option Variable
  | leaf n =>
    match o? with
    | none => some (leaf n)
    | some (.pin p) => some (leaf { n with pin? := some p })
    | some (.fields _) => none
  | dict n fs =>
    match o? with
    | none => some (dict n fs)
    | some (.pin _) => none
    | some (.fields entries) =>
      if (Override.unknownKey? entries fs).isSome then none
      else (designateFields? entries fs).bind fun fs ↦
        (n.designateContainer? entries).map (dict · fs)

def designateFields? (entries : List (String × Override)) :
    List Variable → Option (List Variable)
  | [] => some []
  | v :: vs =>
    (v.designate? <| Override.entry? entries v.name).bind fun v ↦
      (designateFields? entries vs).map (v :: ·)

end

theorem designateFields?_eq_mapM (entries : List (String × Override)) (vs : List Variable) :
    designateFields? entries vs =
      vs.mapM fun v ↦ v.designate? <| Override.entry? entries v.name := by
  induction vs with
  | nil => rfl
  | cons v vs ih => rw [designateFields?, ih, option_mapM_cons]

theorem designate?_none (v : Variable) : v.designate? none = some v := by
  cases v <;> rfl

/-- What an override, if there is one, makes of a variable. -/
def vectorizeBy? (lookup : Lookup) (o? : Option Override) (v : Variable) : Option Variable :=
  match o? with
  | none => some v
  | some o => (v.vectorize lookup o).result?

theorem result?_vectorizeFields (lookup : Lookup) (entries : List (String × Override))
    (vs : List Variable) :
    (vectorizeFields lookup entries vs).result? =
      vs.mapM fun v ↦ v.vectorizeBy? lookup <| Override.entry? entries v.name := by
  induction vs with
  | nil => rfl
  | cons v vs ih =>
    rw [vectorizeFields, option_mapM_cons, ← ih]
    cases hv : Override.entry? entries v.name with
    | none => rw [vectorizeBy?, Option.bind_some]; exact Progress.result?_map _ _
    | some o =>
      rw [vectorizeBy?]
      simp only [Progress.result?_andThen, Progress.result?_map]

theorem walk?_pinned?_of_unpinned {lookup : Lookup} {v : Variable}
    (hv : ∀ n ∈ v.nodes, n.pin? = none) :
    v.walk? (Node.pinned? lookup) (fun _ ↦ Node.pinned? lookup) = some v :=
  walk?_eq_self fun n hn ↦
    ⟨Node.pinned?_of_pin?_eq_none (hv n hn), fun _ ↦ Node.pinned?_of_pin?_eq_none (hv n hn)⟩

/-- **Overriding is designating and then pinning.** -/
theorem vectorizeBy?_eq_designate? {lookup : Lookup} {o? : Option Override} {v : Variable}
    (hv : ∀ n ∈ v.nodes, n.pin? = none) :
    v.vectorizeBy? lookup o? =
      (v.designate? o?).bind (walk? (Node.pinned? lookup) fun _ ↦ Node.pinned? lookup) := by
  induction v generalizing o? with
  | leaf n =>
    rcases o? with _ | (p | entries)
    · rw [vectorizeBy?, designate?_none, Option.bind_some, walk?_pinned?_of_unpinned hv]
    · rw [vectorizeBy?, vectorize, Progress.result?_map, Progress.result?_ofExcept, designate?,
        Option.bind_some, walk?_leaf, Node.pinned?_designate]
    · rfl
  | dict n fs ih =>
    rcases o? with _ | (p | entries)
    · rw [vectorizeBy?, designate?_none, Option.bind_some, walk?_pinned?_of_unpinned hv]
    · rfl
    have hn : n.pin? = none := hv n (node_mem_nodes_dict n fs)
    have hf : ∀ v ∈ fs, ∀ m ∈ v.nodes, m.pin? = none := fun v hvf m hm ↦
      hv m (mem_nodes_of_field hvf hm)
    have hfields : (vectorizeFields lookup entries fs).result? =
        (fs.mapM fun v : Variable ↦ v.designate? <| Override.entry? entries v.name).bind fun gs ↦
          gs.mapM (walk? (Node.pinned? lookup) fun _ ↦ Node.pinned? lookup) := by
      rw [result?_vectorizeFields, mapM_bind_mapM]
      exact mapM_congr fun v hvf ↦ ih v hvf (hf v hvf)
    rw [vectorizeBy?, vectorize, designate?]
    cases Override.unknownKey? entries fs with
    | some key => rfl
    | none =>
      simp only [Progress.result?_andThen, Progress.result?_map, Progress.result?_ofExcept,
        Node.toOption_pinContainer hn, hfields, Option.isSome_none, Bool.false_eq_true, if_false]
      rw [designateFields?_eq_mapM, Option.bind_assoc, Option.bind_assoc]
      refine Option.bind_congr fun gs _ ↦ ?_
      -- the container's own entry is looked at before the fields' pins are applied, or after
      rw [Option.bind_map]
      change _ = (n.designateContainer? entries).bind fun m ↦ walk? _ _ (dict m gs)
      simp only [walk?_dict]
      exact (bind_bind_map_comm ..).symm

theorem name_of_vectorizeBy? {lookup : Lookup} {o? : Option Override} {v w : Variable}
    (h : v.vectorizeBy? lookup o? = some w) : w.name = v.name := by
  rcases o? with _ | o
  · cases h
    rfl
  rw [vectorizeBy?] at h
  cases v with
  | leaf n =>
    rcases o with p | entries
    · rw [vectorize, Progress.result?_map, Progress.result?_ofExcept] at h
      obtain ⟨m, hm, rfl⟩ := Option.map_eq_some_iff.mp h
      exact Node.name_of_pin (toOption_eq_some_iff.mp hm)
    · cases h
  | dict n fs =>
    rcases o with p | entries
    · cases h
    rw [vectorize] at h
    cases hkey : Override.unknownKey? entries fs with
    | some key => rw [hkey] at h; cases h
    | none =>
      rw [hkey] at h
      simp only [Progress.result?_andThen, Progress.result?_map, Progress.result?_ofExcept] at h
      obtain ⟨gs, -, h⟩ := Option.bind_eq_some_iff.mp h
      obtain ⟨m, hm, rfl⟩ := Option.map_eq_some_iff.mp h
      exact Node.name_of_pinContainer (toOption_eq_some_iff.mp hm)

end Variable

/-! ## Calls -/

namespace Call

/-- The call with other variables, if both lists of them are there. -/
def withVariables? (c : Call) (args? kwargs? : Option (List Variable)) : Option Call :=
  args?.bind fun args ↦ kwargs?.map fun kwargs ↦ { c with args, kwargs }

theorem withVariables?_eq_some_iff {c c' : Call} {args? kwargs? : Option (List Variable)} :
    c.withVariables? args? kwargs? = some c' ↔
      args? = some c'.args ∧ kwargs? = some c'.kwargs ∧ c'.function? = c.function? := by
  rw [withVariables?, Option.bind_eq_some_iff]
  constructor
  · rintro ⟨args, hargs, h⟩
    obtain ⟨kwargs, hkwargs, rfl⟩ := Option.map_eq_some_iff.mp h
    exact ⟨hargs, hkwargs, rfl⟩
  · rintro ⟨hargs, hkwargs, hf⟩
    refine ⟨c'.args, hargs, ?_⟩
    rw [hkwargs, Option.map_some, ← hf]

/-- Changes every variable of a call. -/
def mapM? (f : Variable → Option Variable) (c : Call) : Option Call :=
  c.withVariables? (c.args.mapM f) (c.kwargs.mapM f)

theorem result?_traverse (c : Call) (f : Variable → Progress Variable) :
    (c.traverse f).result? = c.mapM? fun v ↦ (f v).result? := by
  rw [traverse, mapM?, ← Progress.result?_traverse, withVariables?]
  simp only [Progress.result?_andThen, Progress.result?_map, Progress.result?_traverse]

theorem withVariables?_bind_mapM? (c : Call) (args? kwargs? : Option (List Variable))
    (g : Variable → Option Variable) :
    (c.withVariables? args? kwargs?).bind (mapM? g) =
      c.withVariables? (args?.bind (·.mapM g)) (kwargs?.bind (·.mapM g)) := by
  rw [withVariables?, withVariables?, Option.bind_assoc, Option.bind_assoc]
  refine Option.bind_congr fun args _ ↦ ?_
  rw [Option.bind_map]
  change (kwargs?.bind fun kwargs ↦
    (args.mapM g).bind fun args ↦ (kwargs.mapM g).map fun kwargs ↦ { c with args, kwargs }) = _
  exact bind_bind_map_comm ..

theorem mapM?_bind_mapM? (f g : Variable → Option Variable) (c : Call) :
    (c.mapM? f).bind (mapM? g) = c.mapM? fun v ↦ (f v).bind g := by
  rw [mapM?, mapM?, withVariables?_bind_mapM?, mapM_bind_mapM, mapM_bind_mapM]

theorem mapM?_congr {f g : Variable → Option Variable} {c : Call}
    (h : ∀ v ∈ c.roots, f v = g v) : c.mapM? f = c.mapM? g := by
  rw [mapM?, mapM?, mapM_congr fun v hv ↦ h v (List.mem_append_left _ hv),
    mapM_congr fun v hv ↦ h v (List.mem_append_right _ hv)]

theorem roots_of_mapM? {f : Variable → Option Variable} {c c' : Call} (h : c.mapM? f = some c') :
    c.roots.mapM f = some c'.roots := by
  obtain ⟨hargs, hkwargs, -⟩ := withVariables?_eq_some_iff.mp h
  exact mapM_eq_some_iff.mpr
    (List.rel_append (mapM_eq_some_iff.mp hargs) (mapM_eq_some_iff.mp hkwargs))

theorem exists_mapM? {f : Variable → Option Variable} {c : Call}
    (h : ∀ v ∈ c.roots, ∃ w, f v = some w) : ∃ c', c.mapM? f = some c' := by
  obtain ⟨args, hargs⟩ := exists_mapM fun v hv ↦ h v (List.mem_append_left _ hv)
  obtain ⟨kwargs, hkwargs⟩ := exists_mapM fun v hv ↦ h v (List.mem_append_right _ hv)
  exact ⟨{ c with args, kwargs }, withVariables?_eq_some_iff.mpr ⟨hargs, hkwargs, rfl⟩⟩

/-- The leaves that a walk leaves are what it makes of the leaves, one by one. -/
theorem leaves_of_mapM? {l : Node → Option Node} {d : List Variable → Node → Option Node}
    {c c' : Call} (h : c.mapM? (Variable.walk? l d) = some c') :
    List.Forall₂ (fun n m ↦ l n = some m) c.leaves c'.leaves :=
  List.rel_flatMap (mapM_eq_some_iff.mp (roots_of_mapM? h)) fun _ _ hvw ↦
    mapM_eq_some_iff.mp (Variable.leaves_of_walk? hvw)

theorem names_of_mapM {f : Variable → Option Variable} {vs ws : List Variable}
    (hf : ∀ v w, f v = some w → w.name = v.name) (h : vs.mapM f = some ws) :
    ws.map (·.name) = vs.map (·.name) := by
  have hvw := (mapM_eq_some_iff.mp h).imp fun v w hvw ↦ (hf v w hvw).symm
  exact (map_eq_of_forall₂ hvw).symm

theorem result?_resolve (c : Call) :
    c.resolve.result? = c.mapM? (Variable.walk? (fun n ↦ n.resolve.result?)
      fun fs n ↦ (n.resolveContainer fs).toOption) := by
  rw [resolve, result?_traverse, funext Variable.result?_resolve]

theorem result?_align (g : Dispatch) (c : Call) :
    (c.align g).result? = c.mapM? (Variable.walk? (fun n ↦ (n.align g).toOption)
      fun _ n ↦ some n) := by
  rw [align, result?_traverse, funext (Variable.result?_align g)]

theorem result?_differentiate (mode : CallMode) (c : Call) :
    (c.differentiate mode).result? =
      c.mapM? (Variable.walk? (fun n ↦ (n.differentiate mode).toOption)
        fun _ n ↦ (n.differentiate mode).toOption) := by
  rw [differentiate, result?_traverse, funext (Variable.result?_differentiate mode)]

/-! ## Overrides of calls -/

end Call

/-- Every override has a variable of its own: there are not more of them than variables, keyword
overrides name keyword variables, and none is named twice. -/
def Vectorization.Matches (o : Vectorization) (c : Call) : Prop :=
  o.args.length ≤ c.args.length ∧ o.kwargs.length ≤ c.kwargs.length ∧
    (∀ e ∈ o.kwargs, (c.kwarg? e.1).isSome) ∧ (o.kwargs.map (·.1)).Nodup

instance (o : Vectorization) (c : Call) : Decidable (o.Matches c) :=
  inferInstanceAs (Decidable (_ ∧ _ ∧ _ ∧ _))

namespace Call

theorem checkKeywordOverrides_eq_ok_iff {c : Call} {seen : List String}
    {os : List (String × Override)} :
    c.checkKeywordOverrides seen os = .ok () ↔
      (∀ e ∈ os, (c.kwarg? e.1).isSome ∧ e.1 ∉ seen) ∧ (os.map (·.1)).Nodup := by
  induction os generalizing seen with
  | nil => simp [checkKeywordOverrides]
  | cons e os ih =>
    obtain ⟨name, o⟩ := e
    rw [checkKeywordOverrides, List.forall_mem_cons, List.map_cons, List.nodup_cons]
    cases hname : c.kwarg? name with
    | none => simp
    | some v =>
      by_cases hseen : name ∈ seen
      · simp [hseen]
      · have hrest : (∀ e ∈ os, (c.kwarg? e.1).isSome ∧ e.1 ∉ name :: seen) ↔
            (∀ e ∈ os, (c.kwarg? e.1).isSome ∧ e.1 ∉ seen) ∧ name ∉ os.map (·.1) := by
          grind
        rw [Option.isNone_some, if_neg Bool.false_ne_true, if_neg (by simpa using hseen), ih, hrest]
        simp [hseen, and_assoc]

theorem checkOverrides_eq_ok_iff {c : Call} {o : Vectorization} :
    c.checkOverrides o = .ok () ↔ o.Matches c := by
  rw [checkOverrides, Vectorization.Matches]
  by_cases hargs : c.args.length < o.args.length
  · rw [if_pos hargs]
    simp [Nat.not_le.mpr hargs]
  by_cases hkwargs : c.kwargs.length < o.kwargs.length
  · rw [if_neg hargs, if_pos hkwargs]
    simp [Nat.not_le.mpr hkwargs]
  rw [if_neg hargs, if_neg hkwargs, checkKeywordOverrides_eq_ok_iff]
  simp [Nat.le_of_not_lt hargs, Nat.le_of_not_lt hkwargs]

theorem isSome_kwarg?_iff {c : Call} {name : String} :
    (c.kwarg? name).isSome ↔ name ∈ c.kwargs.map (·.name) := by
  rw [kwarg?, List.find?_isSome, List.mem_map]
  simp only [beq_iff_eq]

/-- Whether overrides match is a matter of how many variables there are, and of keywords. -/
theorem matches_congr {o : Vectorization} {c c' : Call} (hargs : c'.args.length = c.args.length)
    (hkwargs : c'.kwargs.map (·.name) = c.kwargs.map (·.name)) : o.Matches c' ↔ o.Matches c := by
  have hlen : c'.kwargs.length = c.kwargs.length := by
    rw [← List.length_map, hkwargs, List.length_map]
  simp only [Vectorization.Matches, isSome_kwarg?_iff, hargs, hkwargs, hlen]

/-- Records the pins for positional variables, the overrides being given in order. -/
def designatePositional? : List Variable → List Override → Option (List Variable)
  | [], _ => some []
  | v :: vs, os =>
    (v.designate? os.head?).bind fun v ↦ (designatePositional? vs os.tail).map (v :: ·)

/-- An override for a name comes to the variable of that name alone. -/
theorem result?_vectorizeKeyword (lookup : Lookup) (name : String) (o : Override)
    {vs : List Variable} (hvs : (vs.map (·.name)).Nodup) :
    (vectorizeKeyword lookup name o vs).result? =
      vs.mapM fun v ↦ v.vectorizeBy? lookup (if v.name = name then some o else none) := by
  induction vs with
  | nil => rfl
  | cons v vs ih =>
    rw [List.map_cons, List.nodup_cons] at hvs
    rw [vectorizeKeyword, option_mapM_cons]
    by_cases hv : v.name = name
    · have hrest : vs.mapM (fun v ↦ v.vectorizeBy? lookup (if v.name = name then some o else none))
          = some vs := by
        refine mapM_eq_self fun w hw ↦ ?_
        have hne : w.name ≠ name := fun h ↦
          hvs.1 (List.mem_map.mpr ⟨w, hw, h.trans hv.symm⟩)
        rw [if_neg hne, Variable.vectorizeBy?]
      rw [if_pos (beq_iff_eq.mpr hv), if_pos hv, hrest, Progress.result?_map, Option.map_eq_bind]
      rfl
    · rw [if_neg (by rwa [beq_iff_eq]), if_neg hv, Progress.result?_map, ih hvs.2]
      rfl

/-- **Keyword overrides do not interfere.** The order in which they are given is of no account. -/
theorem result?_vectorizeKeywords (lookup : Lookup) {os : List (String × Override)}
    (hos : (os.map (·.1)).Nodup) {vs : List Variable} (hvs : (vs.map (·.name)).Nodup) :
    (vectorizeKeywords lookup vs os).result? =
      vs.mapM fun v ↦ v.vectorizeBy? lookup <| Override.entry? os v.name := by
  induction os generalizing vs with
  | nil => exact (mapM_eq_self fun v _ ↦ rfl).symm
  | cons e os ih =>
    obtain ⟨name, o⟩ := e
    rw [List.map_cons, List.nodup_cons] at hos
    have hstep : ∀ ws, (vectorizeKeyword lookup name o vs).result? = some ws →
        (vectorizeKeywords lookup ws os).result? =
          ws.mapM fun v ↦ v.vectorizeBy? lookup <| Override.entry? os v.name := by
      intro ws hws
      rw [result?_vectorizeKeyword lookup name o hvs] at hws
      refine ih hos.2 ?_
      rwa [names_of_mapM (fun v w ↦ Variable.name_of_vectorizeBy?) hws]
    rw [vectorizeKeywords, Progress.result?_andThen, Option.bind_congr hstep,
      result?_vectorizeKeyword lookup name o hvs, mapM_bind_mapM]
    refine mapM_congr fun v _ ↦ ?_
    by_cases hv : v.name = name
    · have hnone : Override.entry? os name = none := Override.entry?_eq_none_iff.mpr hos.1
      rw [if_pos hv, Override.entry?_cons, if_pos hv.symm]
      cases hw : v.vectorizeBy? lookup (some o) with
      | none => rfl
      | some w => rw [Option.bind_some, Variable.name_of_vectorizeBy? hw, hv, hnone]; rfl
    · rw [if_neg hv, Override.entry?_cons, if_neg (Ne.symm hv)]
      rfl

/-- Records at every node of a call the pin that the overrides mean for it. -/
def designate? (o : Vectorization) (c : Call) : Option Call :=
  c.withVariables? (designatePositional? c.args o.args)
    (c.kwargs.mapM fun v ↦ v.designate? <| Override.entry? o.kwargs v.name)

theorem result?_vectorizePositional_cons (lookup : Lookup) (v : Variable) (vs : List Variable)
    (os : List Override) :
    (vectorizePositional lookup (v :: vs) os).result? =
      (v.vectorizeBy? lookup os.head?).bind fun w ↦
        (vectorizePositional lookup vs os.tail).result?.map (w :: ·) := by
  cases os with
  | nil => cases vs <;> rfl
  | cons o os =>
    rw [vectorizePositional, List.head?_cons, List.tail_cons]
    simp only [Progress.result?_andThen, Progress.result?_map]
    rfl

theorem result?_vectorizePositional (lookup : Lookup) {vs : List Variable} {os : List Override}
    (hvs : ∀ v ∈ vs, ∀ n ∈ v.nodes, n.pin? = none) :
    (vectorizePositional lookup vs os).result? =
      (designatePositional? vs os).bind fun ws ↦
        ws.mapM (Variable.walk? (Node.pinned? lookup) fun _ ↦ Node.pinned? lookup) := by
  induction vs generalizing os with
  | nil => cases os <;> rfl
  | cons v vs ih =>
    rw [result?_vectorizePositional_cons, designatePositional?, Option.bind_assoc,
      Variable.vectorizeBy?_eq_designate? (hvs v List.mem_cons_self), Option.bind_assoc,
      ih fun w hw ↦ hvs w (List.mem_cons_of_mem v hw)]
    refine Option.bind_congr fun w _ ↦ ?_
    rw [Option.bind_map]
    change _ = (designatePositional? vs os.tail).bind fun ws ↦ (w :: ws).mapM _
    simp only [option_mapM_cons]
    exact (bind_bind_map_comm ..).symm

/-- **Overriding a call is designating and then pinning,** once every override has a variable. -/
theorem result?_vectorize {lookup : Lookup} {c : Call} {o : Vectorization}
    (hpin : ∀ v ∈ c.roots, ∀ n ∈ v.nodes, n.pin? = none)
    (hnames : (c.kwargs.map (·.name)).Nodup) :
    (c.vectorize lookup o).result? =
      if o.Matches c then (c.designate? o).bind
        (mapM? (Variable.walk? (Node.pinned? lookup) fun _ ↦ Node.pinned? lookup))
      else none := by
  by_cases hm : o.Matches c
  · have hargs := fun v hv ↦ hpin v (List.mem_append_left _ hv)
    have hkwargs := fun v hv ↦ hpin v (List.mem_append_right _ hv)
    have hkeys : (vectorizeKeywords lookup c.kwargs o.kwargs).result? =
        (c.kwargs.mapM fun v : Variable ↦ v.designate? <| Override.entry? o.kwargs v.name).bind
          fun ws ↦ ws.mapM (Variable.walk? (Node.pinned? lookup) fun _ ↦ Node.pinned? lookup) := by
      rw [result?_vectorizeKeywords lookup hm.2.2.2 hnames, mapM_bind_mapM]
      exact mapM_congr fun v hv ↦ Variable.vectorizeBy?_eq_designate? (hkwargs v hv)
    rw [if_pos hm, vectorize, checkOverrides_eq_ok_iff.mpr hm, designate?,
      withVariables?_bind_mapM?, ← hkeys, ← result?_vectorizePositional lookup hargs,
      withVariables?]
    simp only [Progress.result?_andThen, Progress.result?_map]
  · rw [if_neg hm, vectorize]
    cases hc : c.checkOverrides o with
    | error e => rfl
    | ok u => exact absurd (checkOverrides_eq_ok_iff.mp hc) hm

end Call

end KernelCall
