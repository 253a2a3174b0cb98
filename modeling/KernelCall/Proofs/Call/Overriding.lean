import KernelCall.Proofs.Call.Errors
import KernelCall.Proofs.Call.Run
import KernelCall.Proofs.Variable.Overriding

/-!
# Overriding a call

Overrides are matched with arguments first and applied afterwards. Overrides that do not match are
therefore refused with the call as it was, and in a category of their own: all errors that come
later are about one override that does not fit its argument.

Overrides that match go through if and only if each fits its argument, and they leave
`Call.overridden`, in which every argument has been overridden by itself. This is where keywords
have to differ. Keyword overrides are applied in the order given, each to the first variable of its
name, and that this is the variable that the others leave alone follows from the names on either
side.
-/

namespace KernelCall

/-! ## Overrides that do not match -/

/-- Overrides do not match a call: there are more positional or more keyword overrides than
arguments, one names no keyword argument, or two have the same name. -/
def Vectorization.Mismatched (o : Vectorization) (c : Call) : Prop :=
  c.args.length < o.args.length ∨ c.kwargs.length < o.kwargs.length ∨
    (∃ e ∈ o.kwargs, e.1 ∉ c.kwargs.map (·.name)) ∨ ¬ (o.kwargs.map (·.1)).Nodup

theorem Vectorization.mismatched_iff {o : Vectorization} {c : Call} :
    o.Mismatched c ↔ ¬ o.Matches c := by
  simp only [Mismatched, Matches, Call.isSome_kwarg?_iff, not_and_or, Nat.not_le, not_forall,
    exists_prop]

namespace Call

theorem raises_vectorize_of_matches (lookup : Lookup) {c : Call} {o : Vectorization}
    (h : o.Matches c) : (c.vectorize lookup o).Raises [.malformedOverride] := by
  rw [vectorize, checkOverrides_eq_ok_iff.mpr h]
  apply Progress.raises_andThen (raises_vectorizePositional lookup c.args o.args)
  intro args
  exact Progress.raises_map (raises_vectorizeKeywords lookup c.kwargs o.kwargs)

/-- **Overrides that do not match change nothing.** They are refused in a category of their own,
with the call as it was; any others are applied, or refused for one that does not fit. -/
theorem vectorize_mismatched_iff (lookup : Lookup) (c : Call) (o : Vectorization) :
    ((∃ e, (c.vectorize lookup o).error? = some e ∧ e.kind = .overrideArity) ↔ o.Mismatched c) ∧
      (o.Mismatched c → (c.vectorize lookup o).state = c) ∧
      (¬ o.Mismatched c → (c.vectorize lookup o).Raises [.malformedOverride]) := by
  rw [Vectorization.mismatched_iff, not_not]
  by_cases h : o.Matches c
  · -- an error that comes later is of another kind
    have hraises := raises_vectorize_of_matches lookup h
    refine ⟨iff_of_false ?_ (not_not_intro h), absurd h, fun _ ↦ hraises⟩
    rintro ⟨e, he, hkind⟩
    have hmalformed := hraises e he
    rw [hkind] at hmalformed
    simp at hmalformed
  · obtain ⟨e, he⟩ : ∃ e, c.checkOverrides o = .error e := by
      cases hcheck : c.checkOverrides o with
      | error e => exact ⟨e, rfl⟩
      | ok u => exact absurd (checkOverrides_eq_ok_iff.mp hcheck) h
    have hkind : e.kind = .overrideArity := List.mem_singleton.mp (raises_checkOverrides c o e he)
    rw [vectorize, he]
    exact ⟨iff_of_true ⟨e, rfl, hkind⟩ h, fun _ ↦ rfl, fun hm ↦ absurd hm h⟩

end Call

/-! ## Overrides that fit -/

/-- Every override fits the argument that it is given for. -/
def Vectorization.Fits (lookup : Lookup) (o : Vectorization) (c : Call) : Prop :=
  ∀ (r : Root) (v : Variable), c.root? r = some v → ∀ q ∈ o.root? r, q.Fits lookup v

namespace Call

/-- The call with each argument overridden. -/
def overridden (lookup : Lookup) (o : Vectorization) (c : Call) : Call where
  args := c.args.mapIdx fun i v ↦ v.overridden lookup o.args[i]?
  kwargs := c.kwargs.map fun v ↦ v.overridden lookup (Override.entry? o.kwargs v.name)
  function? := c.function?

section

variable {lookup : Lookup} {o : Vectorization} {c c' : Call}

theorem result?_vectorizePositional_eq_some_iff {vs ws : List Variable} {os : List Override} :
    (vectorizePositional lookup vs os).result? = some ws ↔
      (∀ (i : Nat) v, vs[i]? = some v → ∀ q ∈ os[i]?, q.Fits lookup v) ∧
        ws = vs.mapIdx fun i v ↦ v.overridden lookup os[i]? := by
  induction vs generalizing os ws with
  | nil => cases os <;> simp [vectorizePositional, eq_comm]
  | cons v vs ih =>
    have hhead : os.head? = os[0]? := List.head?_eq_getElem?
    have htail : ∀ i : Nat, os.tail[i]? = os[i + 1]? := fun i ↦ List.getElem?_tail
    rw [result?_vectorizePositional_cons, bind_map_cons_eq_some_iff, List.mapIdx_cons]
    simp only [Variable.vectorizeBy?_eq_some_iff, ih, hhead, htail]
    constructor
    · rintro ⟨_, _, ⟨hv, rfl⟩, ⟨hvs, rfl⟩, rfl⟩
      refine ⟨fun i u hu ↦ ?_, rfl⟩
      rcases i with _ | i
      · obtain rfl := Option.some.inj hu
        exact hv
      · exact hvs i u hu
    · rintro ⟨h, rfl⟩
      exact ⟨_, _, ⟨h 0 v rfl, rfl⟩, ⟨fun i u hu ↦ h (i + 1) u hu, rfl⟩, rfl⟩

theorem result?_vectorizeKeywords_eq_some_iff {os : List (String × Override)}
    (hos : (os.map (·.1)).Nodup) {vs ws : List Variable} (hvs : (vs.map (·.name)).Nodup) :
    (vectorizeKeywords lookup vs os).result? = some ws ↔
      (∀ v ∈ vs, ∀ q ∈ Override.entry? os v.name, q.Fits lookup v) ∧
        ws = vs.map fun v ↦ v.overridden lookup (Override.entry? os v.name) := by
  rw [result?_vectorizeKeywords lookup hos hvs]
  exact mapM_eq_some_map_iff fun v _ _ ↦ Variable.vectorizeBy?_eq_some_iff

/-- An argument is a positional variable, or the keyword variable of its name. -/
theorem fits_iff (hnames : (c.kwargs.map (·.name)).Nodup) : o.Fits lookup c ↔
    (∀ (i : Nat) v, c.args[i]? = some v → ∀ q ∈ o.args[i]?, q.Fits lookup v) ∧
      ∀ v ∈ c.kwargs, ∀ q ∈ Override.entry? o.kwargs v.name, q.Fits lookup v := by
  constructor
  · intro h
    refine ⟨fun i v hv ↦ h (.arg i) v hv, fun v hv ↦ h (.kwarg v.name) v ?_⟩
    exact Variable.find?_name_of_mem hnames hv
  · rintro ⟨hargs, hkwargs⟩ r v hv
    rcases r with i | name
    · exact hargs i v hv
    · have hname : v.name = name := by simpa using List.find?_some hv
      obtain rfl := hname
      exact hkwargs v (List.mem_of_find?_eq_some hv)

/-- **Overriding a call.** Overrides that match go through if and only if they fit, and leave every
argument overridden. -/
theorem result?_vectorize_eq_some_iff (hm : o.Matches c) (hnames : (c.kwargs.map (·.name)).Nodup) :
    (c.vectorize lookup o).result? = some c' ↔ o.Fits lookup c ∧ c' = c.overridden lookup o := by
  have hresult : (c.vectorize lookup o).result? =
      c.withVariables? (vectorizePositional lookup c.args o.args).result?
        (vectorizeKeywords lookup c.kwargs o.kwargs).result? := by
    rw [vectorize, checkOverrides_eq_ok_iff.mpr hm, withVariables?]
    simp only [Progress.result?_andThen, Progress.result?_map]
  rw [hresult, withVariables?_eq_some_iff, result?_vectorizePositional_eq_some_iff,
    result?_vectorizeKeywords_eq_some_iff hm.2.2.2 hnames, fits_iff hnames]
  constructor
  · rintro ⟨⟨hargs, hargs'⟩, ⟨hkwargs, hkwargs'⟩, hfunction⟩
    refine ⟨⟨hargs, hkwargs⟩, ?_⟩
    rw [overridden, ← hargs', ← hkwargs', ← hfunction]
  · rintro ⟨⟨hargs, hkwargs⟩, rfl⟩
    exact ⟨⟨hargs, rfl⟩, ⟨hkwargs, rfl⟩, rfl⟩

/-! ## Places in an overridden call -/

theorem root?_overridden (r : Root) : (c.overridden lookup o).root? r =
    (c.root? r).map (·.overridden lookup (o.root? r)) := by
  rcases r with i | name
  · exact List.getElem?_mapIdx
  · change List.find? _ (c.kwargs.map _) = (c.kwargs.find? _).map _
    rw [List.find?_map]
    simp only [Function.comp_def, Variable.name_overridden]
    refine Option.map_congr fun v hv ↦ ?_
    have hname : v.name = name := by simpa using List.find?_some hv
    rw [hname]
    rfl

/-- What is at a place is overridden by the override for the place. -/
theorem at?_overridden (x : Place) : (c.overridden lookup o).at? x =
    (c.at? x).map (·.overridden lookup (o.at? x)) := by
  rw [at?, at?, root?_overridden, Option.bind_map, Option.map_bind]
  refine Option.bind_congr fun v _ ↦ ?_
  exact v.descend?_overridden lookup (o.root? x.root) x.fields

end

/-- The second call is the first with the overrides: each node has the pin that they have for it,
and otherwise it is as it was. -/
structure OverriddenBy (lookup : Lookup) (o : Vectorization) (c c' : Call) : Prop where
  /-- The node at a place has the pin for it, if there is one. -/
  node : ∀ x, (c'.at? x).map Variable.node =
    (c.at? x).map fun v ↦ v.node.repinnedBy lookup ((o.at? x).bind (·.pinFor? v))
  /-- Every variable is at a place. -/
  placed : ∀ v ∈ c'.roots, ∀ u ∈ v.parts, ∃ x, c'.at? x = some u
  skeleton : c'.skeleton = c.skeleton
  function : c'.function? = c.function?

/-- **Overrides that match.** After any passes over some arguments, overrides that match the call
are applied if and only if every one of them fits its argument. Then the nodes that they have pins
for are pinned, and nothing else is changed. -/
theorem vectorize_matching {registry : MarshallRegistry} {a : Arguments} {start : Call}
    (hstart : ofArguments registry a = .ok start) (ps : List Pass) (lookup : Lookup)
    {o : Vectorization} (hm : o.Matches (start.after ps)) :
    (((start.after ps).vectorize lookup o).error? = none ↔ o.Fits lookup (start.after ps)) ∧
      (o.Fits lookup (start.after ps) → (start.after ps).OverriddenBy lookup o
        ((start.after ps).vectorize lookup o).state) := by
  have hreached := (reached_start hstart).after ps
  have hresult : ∀ c', ((start.after ps).vectorize lookup o).result? = some c' ↔
      o.Fits lookup (start.after ps) ∧ c' = (start.after ps).overridden lookup o := fun c' ↦
    result?_vectorize_eq_some_iff hm hreached.distinct.keywords
  constructor
  · constructor
    · intro herror
      exact ((hresult _).mp (Progress.result?_of_error? herror)).1
    · intro hfit
      exact Progress.error?_of_result? ((hresult _).mpr ⟨hfit, rfl⟩)
  · intro hfit
    have hstate := Progress.state_of_result? ((hresult _).mpr ⟨hfit, rfl⟩)
    -- the invariants of runs hold of the state that is left
    have hleft : start.Reached ((start.after ps).vectorize lookup o).state :=
      hreached.leave (.vectorize lookup o)
    refine ⟨fun x ↦ ?_, fun v hv u hu ↦ hleft.distinct.exists_at? hv hu,
      hleft.skeleton.trans hreached.skeleton.symm, ?_⟩
    · rw [hstate, at?_overridden, Option.map_map]
      simp only [Function.comp_def, Variable.node_overridden]
    · rw [hstate]
      rfl

/-- A point over a grid, and its weight. -/
def griddedPoint : Arguments where
  args := [.dict [("x", .buffer { element := .scalar .float, extents := [3, 4] }), ("y", .float 1)]]
  kwargs := [("weight", .int 2)]

/-- Overrides for a field, for the dictionary itself and for the keyword. The second entry for the
field would not fit. -/
def griddedOverrides : Vectorization where
  args := [.fields [("x", .pin (.axes [1, 0])),
    (Override.containerKey, .pin (.type (.scalar .float))), ("x", .pin (.axes [0, 1, 2]))]]
  kwargs := [("weight", .pin (.hostKind .float))]

theorem overriddenBy_griddedPoint : ∃ start, ofArguments .builtin griddedPoint = .ok start ∧
    griddedOverrides.Matches (start.after [.resolve]) ∧
      (start.after [.resolve]).OverriddenBy ⟨.standard, .builtin⟩ griddedOverrides
        ((start.after [.resolve]).vectorize ⟨.standard, .builtin⟩ griddedOverrides).state := by
  refine ⟨_, rfl, by decide, ?_⟩
  obtain ⟨hfit, hleft⟩ := @vectorize_matching .builtin griddedPoint _ rfl [.resolve]
    ⟨.standard, .builtin⟩ griddedOverrides (by decide)
  exact hleft (hfit.mp rfl)

end Call

end KernelCall
