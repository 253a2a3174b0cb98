import KernelCall.Proofs.Call.Outcome
import KernelCall.Proofs.Variable.Altered

/-!
# Overriding a variable

An override and a variable are two trees of different shape. `Override.Fits` is the judgement that
the one can be applied to the other, and `Variable.overridden` is what it makes of the variable, a
map that repins node after node and never fails. Overriding goes through if and only if the override
fits, and then it leaves that map (`vectorizeBy?_eq_some_iff`).

The proof is by induction on the variable, for every entry of the override that counts belongs to a
field. The one exception is the entry for the dictionary itself, which is looked at last. Entries
that are repeated do not count, although their keys are still checked.
-/

namespace KernelCall

/-! ## Pinning a node -/

/-- The type that a pin denotes for a value: what axes leave of it, or the type that is named. -/
def Pin.denotedType? (lookup : Lookup) (m : Marshall) : Pin → Option KernelType
  | axes l => (m.reduce l.length).toOption
  | p => p.namedType? lookup

theorem Pin.toOption_vectorType (lookup : Lookup) (m : Marshall) (p : Pin) :
    (p.vectorType lookup m).toOption = p.denotedType? lookup m := by
  cases p with
  | axes l =>
    rw [vectorType, denotedType?]
    cases m.reduce l.length <;> rfl
  | _ => exact Node.toOption_vectorType lookup m rfl

namespace Node

/-- The node with a pin: it records the pin, has the type that the pin denotes, and is mapped onto
the axes if it is pinned to axes. -/
def repinned (lookup : Lookup) (p : Pin) (n : Node) : Node :=
  { n with
    mapping := p.mapping n.mapping
    vectorType? := p.denotedType? lookup n.marshall
    pin? := some p }

/-- The node with the pin for it, if there is one. -/
def repinnedBy (lookup : Lookup) (p? : Option Pin) (n : Node) : Node :=
  match p? with
  | none => n
  | some p => n.repinned lookup p

@[simp] theorem name_repinnedBy (lookup : Lookup) (p? : Option Pin) (n : Node) :
    (n.repinnedBy lookup p?).name = n.name := by
  cases p? <;> rfl

theorem toOption_pin_eq_some_iff {lookup : Lookup} {p : Pin} {n m : Node} :
    (n.pin lookup p).toOption = some m ↔
      (p.denotedType? lookup n.marshall).isSome ∧ m = n.repinned lookup p := by
  rw [toOption_pin, p.toOption_vectorType, Option.map_eq_some_iff, repinned]
  cases p.denotedType? lookup n.marshall with
  | none => simp
  | some t => simp [eq_comm]

end Node

/-! ## Overrides that fit -/

namespace Override

/-- The pin that an override has for the node at the root of a variable: a dictionary's own entry,
or for a leaf the override itself. -/
def pinFor? (v : Variable) (o : Override) : Option Pin :=
  if v.isLeaf then o.pin? else (o.field? containerKey).bind pin?

/-- An override fits a variable. -/
inductive Fits (lookup : Lookup) : Override → Variable → Prop where
  /-- A leaf takes a pin that denotes a type for its value. -/
  | leaf {p : Pin} {n : Node} (type : (p.denotedType? lookup n.marshall).isSome) :
    Fits lookup (.pin p) (.leaf n)
  /-- A dictionary takes entries for its fields and for itself. Every key has to be known, but of
  the entries of one key only the first has to fit. -/
  | dict {entries : List (String × Override)} {n : Node} {fs : List Variable}
    (keys : ∀ e ∈ entries, e.1 = containerKey ∨ e.1 ∈ fs.map (·.name))
    (fields : ∀ v ∈ fs, ∀ o ∈ entry? entries v.name, Fits lookup o v)
    (container : ∀ o ∈ entry? entries containerKey,
      ∃ p, o = .pin p ∧ (p.namedType? lookup).isSome) :
    Fits lookup (.fields entries) (.dict n fs)

section

variable {lookup : Lookup} {n : Node} {fs : List Variable} {p : Pin}
  {entries : List (String × Override)}

theorem fits_leaf_iff :
    (Override.pin p).Fits lookup (.leaf n) ↔ (p.denotedType? lookup n.marshall).isSome := by
  constructor
  · intro h
    cases h with
    | leaf htype => exact htype
  · exact .leaf

theorem fits_dict_iff : (Override.fields entries).Fits lookup (.dict n fs) ↔
    (∀ e ∈ entries, e.1 = containerKey ∨ e.1 ∈ fs.map (·.name)) ∧
      (∀ v ∈ fs, ∀ o ∈ entry? entries v.name, o.Fits lookup v) ∧
      ∀ o ∈ entry? entries containerKey, ∃ p, o = .pin p ∧ (p.namedType? lookup).isSome := by
  constructor
  · intro h
    cases h with
    | dict hkeys hfields hcontainer => exact ⟨hkeys, hfields, hcontainer⟩
  · rintro ⟨hkeys, hfields, hcontainer⟩
    exact .dict hkeys hfields hcontainer

theorem unknownKey?_eq_none_iff : unknownKey? entries fs = none ↔
      ∀ e ∈ entries, e.1 = containerKey ∨ e.1 ∈ fs.map (·.name) := by
  have hfields : ∀ key : String, fs.any (·.name == key) ↔ key ∈ fs.map (·.name) := by
    intro key
    rw [List.any_eq_true, List.mem_map]
    simp only [beq_iff_eq]
  rw [unknownKey?, Option.map_eq_none_iff, List.find?_eq_none]
  refine forall₂_congr fun e _ ↦ ?_
  rw [← hfields, Bool.not_eq_true, Bool.and_eq_false_iff, bne_eq_false_iff_eq, Bool.not_eq_false']

end

end Override

/-- What is said of a dictionary itself can be applied if it is nothing or names a type, and only
then. -/
theorem Node.toOption_pinContainer_eq_some_iff {lookup : Lookup}
    {entries : List (String × Override)} {n m : Node} :
    (n.pinContainer lookup entries).toOption = some m ↔
      (∀ o ∈ Override.entry? entries Override.containerKey,
        ∃ p, o = .pin p ∧ (p.namedType? lookup).isSome) ∧
      m = n.repinnedBy lookup
        ((Override.entry? entries Override.containerKey).bind Override.pin?) := by
  rw [pinContainer]
  rcases Override.entry? entries Override.containerKey with _ | (p | fs)
  · constructor
    · rintro ⟨⟩
      exact ⟨by simp, rfl⟩
    · rintro ⟨-, rfl⟩
      rfl
  · have hpin : ∀ p : Pin, p.isAxes = false → ((n.pin lookup p).toOption = some m ↔
        (p.namedType? lookup).isSome ∧ m = n.repinned lookup p) := by
      intro p hp
      rw [toOption_pin_eq_some_iff, ← Pin.toOption_vectorType, toOption_vectorType lookup _ hp]
    cases p with
    | axes l => simp [Except.toOption, Pin.namedType?]
    | _ => simpa [Override.pin?, repinnedBy] using hpin _ rfl
  · simp [Except.toOption]

/-! ## Overriding -/

namespace Variable

mutual

/-- What an override, if there is one, makes of a variable that it fits. -/
def overridden (lookup : Lookup) (o? : Option Override) : Variable → Variable
  | leaf n => leaf (n.repinnedBy lookup (o?.bind (·.pinFor? (leaf n))))
  | dict n fs =>
    dict (n.repinnedBy lookup (o?.bind (·.pinFor? (dict n fs)))) (overriddenFields lookup o? fs)

/-- Each field is overridden by the entry for its name. -/
def overriddenFields (lookup : Lookup) (o? : Option Override) : List Variable → List Variable
  | [] => []
  | v :: vs =>
    overridden lookup (o?.bind (·.field? v.name)) v :: overriddenFields lookup o? vs

end

section

variable (lookup : Lookup) (o? : Option Override)

theorem overriddenFields_eq_map (vs : List Variable) : overriddenFields lookup o? vs =
    vs.map fun v ↦ v.overridden lookup (o?.bind (·.field? v.name)) := by
  induction vs with
  | nil => rfl
  | cons v vs ih => rw [overriddenFields, ih, List.map_cons]

theorem node_overridden (v : Variable) :
    (v.overridden lookup o?).node = v.node.repinnedBy lookup (o?.bind (·.pinFor? v)) := by
  cases v <;> rfl

theorem name_overridden (v : Variable) : (v.overridden lookup o?).name = v.name := by
  rw [name, node_overridden, Node.name_repinnedBy]

theorem overridden_none (v : Variable) : v.overridden lookup none = v := by
  induction v with
  | leaf n => rfl
  | dict n fs ih =>
    rw [overridden, overriddenFields_eq_map]
    exact congrArg (dict n) ((List.map_congr_left ih).trans (List.map_id fs))

/-- **Overriding commutes with descent.** The names that lead to a variable lead to what the
override for it has made of it. -/
theorem descend?_overridden (v : Variable) (names : List String) :
    (v.overridden lookup o?).descend? names =
      (v.descend? names).map (·.overridden lookup (o?.bind (·.descend? names))) := by
  induction names generalizing o? v with
  | nil => cases o? <;> rfl
  | cons name names ih =>
    have hfield : (v.overridden lookup o?).field? name =
        (v.field? name).map (·.overridden lookup (o?.bind (·.field? name))) := by
      cases v with
      | leaf n => rfl
      | dict n fs =>
        change (overriddenFields lookup o? fs).find? (·.name == name) =
          (fs.find? (·.name == name)).map _
        rw [overriddenFields_eq_map, List.find?_map]
        simp only [Function.comp_def, name_overridden]
        refine Option.map_congr fun f hf ↦ ?_
        have hname : f.name = name := by simpa using List.find?_some hf
        rw [hname]
    change ((v.overridden lookup o?).field? name).bind (·.descend? names) =
      ((v.field? name).bind (·.descend? names)).map _
    rw [hfield, Option.bind_map, Option.map_bind]
    refine Option.bind_congr fun f _ ↦ ?_
    rw [Function.comp_apply, ih, Option.bind_assoc]
    rfl

end

section

variable {lookup : Lookup}

theorem result?_vectorize_leaf_eq_some_iff {p : Pin} {n : Node} {w : Variable} :
    ((leaf n).vectorize lookup (.pin p)).result? = some w ↔
      (p.denotedType? lookup n.marshall).isSome ∧ w = leaf (n.repinned lookup p) := by
  rw [vectorize, Progress.result?_map, Progress.result?_ofExcept, Option.map_eq_some_iff]
  constructor
  · rintro ⟨m, hm, rfl⟩
    obtain ⟨htype, rfl⟩ := Node.toOption_pin_eq_some_iff.mp hm
    exact ⟨htype, rfl⟩
  · rintro ⟨htype, rfl⟩
    exact ⟨_, Node.toOption_pin_eq_some_iff.mpr ⟨htype, rfl⟩, rfl⟩

theorem result?_vectorize_dict_eq_some_iff {entries : List (String × Override)} {n : Node}
    {fs : List Variable} {w : Variable} :
    ((dict n fs).vectorize lookup (.fields entries)).result? = some w ↔
      (∀ e ∈ entries, e.1 = Override.containerKey ∨ e.1 ∈ fs.map (·.name)) ∧
      ∃ gs m, (vectorizeFields lookup entries fs).result? = some gs ∧
        (n.pinContainer lookup entries).toOption = some m ∧ w = dict m gs := by
  rw [vectorize]
  by_cases hknown : ∀ e ∈ entries, e.1 = Override.containerKey ∨ e.1 ∈ fs.map (·.name)
  · rw [Override.unknownKey?_eq_none_iff.mpr hknown]
    simp only [Progress.result?_andThen, Progress.result?_map, Progress.result?_ofExcept,
      Option.bind_eq_some_iff, Option.map_eq_some_iff]
    constructor
    · rintro ⟨gs, hgs, m, hm, rfl⟩
      exact ⟨hknown, gs, m, hgs, hm, rfl⟩
    · rintro ⟨-, gs, m, hgs, hm, rfl⟩
      exact ⟨gs, hgs, m, hm, rfl⟩
  · obtain ⟨key, hkey⟩ := Option.ne_none_iff_exists'.mp
      (mt Override.unknownKey?_eq_none_iff.mp hknown)
    rw [hkey]
    refine iff_of_false ?_ fun h ↦ hknown h.1
    rintro ⟨⟩

/-- **Overriding a variable.** It goes through if and only if the override fits, and repins the
nodes that the override has pins for. -/
theorem vectorizeBy?_eq_some_iff {o? : Option Override} {v w : Variable} :
    v.vectorizeBy? lookup o? = some w ↔
      (∀ o ∈ o?, o.Fits lookup v) ∧ w = v.overridden lookup o? := by
  induction v generalizing o? w with
  | leaf n =>
    rcases o? with _ | (p | entries)
    · simp [vectorizeBy?, overridden_none, eq_comm]
    · simp only [Option.mem_some, forall_eq', Override.fits_leaf_iff]
      exact result?_vectorize_leaf_eq_some_iff
    · -- a leaf takes no entries
      refine iff_of_false (by rintro ⟨⟩) ?_
      rintro ⟨hfits, -⟩
      cases hfits (.fields entries) rfl
  | dict n fs ih =>
    rcases o? with _ | (p | entries)
    · simp [vectorizeBy?, overridden_none, eq_comm]
    · refine iff_of_false (by rintro ⟨⟩) ?_
      rintro ⟨hfits, -⟩
      cases hfits (.pin p) rfl
    · -- all entries that count belong to fields, but for that of the dictionary itself
      have hfields : ∀ gs, (vectorizeFields lookup entries fs).result? = some gs ↔
          (∀ v ∈ fs, ∀ o ∈ Override.entry? entries v.name, o.Fits lookup v) ∧
            gs = overriddenFields lookup (some (.fields entries)) fs := by
        intro gs
        rw [result?_vectorizeFields, overriddenFields_eq_map]
        exact mapM_eq_some_map_iff fun v hv _ ↦ ih v hv
      rw [vectorizeBy?, result?_vectorize_dict_eq_some_iff]
      simp only [hfields, Node.toOption_pinContainer_eq_some_iff, Option.mem_some, forall_eq',
        Override.fits_dict_iff]
      constructor
      · rintro ⟨hkeys, _, _, ⟨hfit, rfl⟩, ⟨hcontainer, rfl⟩, rfl⟩
        exact ⟨⟨hkeys, hfit, hcontainer⟩, rfl⟩
      · rintro ⟨⟨hkeys, hfit, hcontainer⟩, rfl⟩
        exact ⟨hkeys, _, _, ⟨hfit, rfl⟩, ⟨hcontainer, rfl⟩, rfl⟩

end

end Variable

end KernelCall
