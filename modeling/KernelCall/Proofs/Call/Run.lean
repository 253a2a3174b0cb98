import KernelCall.Proofs.Call.Frame
import KernelCall.Proofs.Call.Reading

/-!
# Runs over one call

The passes are meant to run in one order, but nothing enforces it: a caller may bind twice, align
before resolving, or override a call that is aligned already, and may go on with the call after a
pass has failed half-way. This module is about all such runs.

A run is a list of passes, and each pass leads from a state to the state that it leaves, whatever
became of it. What one pass does to a node is said once for all passes (`Node.Stepped` for leaves,
`Node.ContainerStepped` for dictionaries), and `Pass.altered` shows it from their frames. The
invariants of runs follow by induction on the list.
-/

namespace KernelCall

/-! ## Passes -/

/-- A pass over a call, with all that it is given. -/
inductive Pass where
  | bind (f : Function)
  | vectorize (lookup : Lookup) (o : Vectorization)
  | resolve
  | align (dispatch : Dispatch)
  | differentiate (mode : CallMode)

namespace Pass

def run (c : Call) : Pass → Progress Call
  | bind f => c.bind f
  | vectorize lookup o => c.vectorize lookup o
  | resolve => c.resolve
  | align dispatch => c.align dispatch
  | differentiate mode => c.differentiate mode

/-- The state that a pass leaves, whether it goes through or not. -/
def leave (p : Pass) (c : Call) : Call := (p.run c).state

/-- The overrides that a pass applies. -/
def overrides : Pass → Vectorization
  | vectorize _ o => o
  | _ => {}

end Pass

/-- The state after passes in order. -/
def Call.after (c : Call) (ps : List Pass) : Call := ps.foldl (fun c p ↦ p.leave c) c

theorem Call.after_append (c : Call) (ps qs : List Pass) :
    c.after (ps ++ qs) = (c.after ps).after qs := List.foldl_append

/-! ## What one pass does to a node -/

namespace Node

/-- What holds of a node between passes: axes that are pinned are its mapping, and only a node that
is differentiable has access to derivatives. -/
structure Consistent (n : Node) : Prop where
  axes : ∀ l, n.pin? = some (.axes l) → n.mapping = .onto l
  gradient : n.access.derivative ≠ .none → n.differentiable

/-- What a pass does to a leaf that it has the pin `pin?` for. -/
structure Stepped (pin? : Option Pin) (n m : Node) : Prop where
  marshall : m.marshall = n.marshall
  mapping : n.mapping.isResolved →
    m.mapping = n.mapping ∨ ∃ l, pin? = some (.axes l) ∧ m.mapping = .onto l
  consistent : n.Consistent → m.Consistent

/-- What a pass does to a dictionary's own node. -/
structure ContainerStepped (n m : Node) : Prop where
  marshall : m.marshall = n.marshall
  mapping : m.mapping = n.mapping
  consistent : n.Consistent → m.Consistent

theorem ContainerStepped.stepped {pin? : Option Pin} {n m : Node} (h : n.ContainerStepped m) :
    n.Stepped pin? m :=
  ⟨h.marshall, fun _ ↦ Or.inl h.mapping, h.consistent⟩

theorem containerStepped_of_rebound {n m : Node} (h : n.Rebound m) : n.ContainerStepped m := by
  obtain ⟨_, _, _, _, rfl⟩ := h
  exact ⟨rfl, rfl, fun hn ↦ ⟨hn.axes, hn.gradient⟩⟩

theorem containerStepped_of_resolved {n m : Node} (h : n.Resolved m) : n.ContainerStepped m := by
  obtain ⟨_, _, rfl⟩ := h
  exact ⟨rfl, rfl, fun hn ↦ ⟨hn.axes, hn.gradient⟩⟩

theorem containerStepped_of_differentiated {n m : Node} (h : n.Differentiated m) :
    n.ContainerStepped m := by
  rcases h with rfl | ⟨mode, differentiable, rfl⟩
  · exact ⟨rfl, rfl, id⟩
  · refine ⟨rfl, rfl, fun hn ↦ ⟨hn.axes, fun hderivative ↦ ?_⟩⟩
    cases differentiable with
    | true => rfl
    | false =>
      exact absurd (CallMode.access_derivative_of_not_differentiable mode n.direction) hderivative

/-- A type can be pinned without a word on the mapping. -/
theorem containerStepped_of_pin {lookup : Lookup} {p : Pin} {n m : Node} (hp : p.isAxes = false)
    (h : n.pin lookup p = .ok m) : n.ContainerStepped m := by
  obtain ⟨t, -, rfl⟩ := pin_eq_ok_iff.mp h
  have hmapping : p.mapping n.mapping = n.mapping := by
    cases p with
    | axes l => cases hp
    | _ => rfl
  refine ⟨rfl, hmapping, fun hn ↦ ⟨?_, hn.gradient⟩⟩
  rintro l ⟨⟩
  cases hp

theorem containerStepped_of_typecast {lookup : Lookup} {n m : Node} (h : n.Typecast lookup m) :
    n.ContainerStepped m := by
  rcases h with rfl | ⟨p, hp, h⟩
  · exact ⟨rfl, rfl, id⟩
  · exact containerStepped_of_pin hp h

theorem stepped_of_overridden {lookup : Lookup} {pin? : Option Pin} {n m : Node}
    (h : n.Overridden lookup pin? m) : n.Stepped pin? m := by
  rcases h with rfl | ⟨p, hp, h⟩
  · exact ⟨rfl, fun _ ↦ Or.inl rfl, id⟩
  cases haxes : p.isAxes with
  | false => exact (containerStepped_of_pin haxes h).stepped
  | true =>
    cases p with
    | axes l =>
      -- the one step that may change a mapping, and then pin and mapping are the same axes
      obtain ⟨t, -, rfl⟩ := pin_eq_ok_iff.mp h
      refine ⟨rfl, fun _ ↦ Or.inr ⟨l, hp, rfl⟩, fun hn ↦ ⟨?_, hn.gradient⟩⟩
      rintro _ ⟨⟩
      rfl
    | _ => cases haxes

/-- A leaf that is aligned had no mapping, and so no axes that were pinned. -/
theorem stepped_of_aligned {pin? : Option Pin} {n m : Node} (h : n.Aligned m) :
    n.Stepped pin? m := by
  rcases h with rfl | ⟨hmapping, _, rfl⟩
  · exact ⟨rfl, fun _ ↦ Or.inl rfl, id⟩
  · refine ⟨rfl, fun hresolved ↦ ?_, fun hn ↦ ⟨fun l hl ↦ ?_, hn.gradient⟩⟩
    · rw [hmapping] at hresolved
      cases hresolved
    · have hpinned := hn.axes l hl
      rw [hmapping] at hpinned
      cases hpinned

end Node

/-- **The step lemma.** Every pass alters a call place by place, under the overrides it applies. -/
theorem Pass.altered (p : Pass) (c : Call) :
    c.Altered Node.Stepped Node.ContainerStepped p.overrides (p.leave c) := by
  cases p with
  | bind f =>
    exact (c.altered_bind f).imp (fun _ _ _ h ↦ (Node.containerStepped_of_rebound h).stepped)
      fun _ _ ↦ Node.containerStepped_of_rebound
  | vectorize lookup o =>
    exact (c.altered_vectorize lookup o).imp (fun _ _ _ ↦ Node.stepped_of_overridden)
      fun _ _ ↦ Node.containerStepped_of_typecast
  | resolve =>
    exact c.altered_resolve.imp (fun _ _ _ h ↦ (Node.containerStepped_of_resolved h).stepped)
      fun _ _ ↦ Node.containerStepped_of_resolved
  | align dispatch =>
    refine (c.altered_align dispatch).imp (fun _ _ _ ↦ Node.stepped_of_aligned) ?_
    rintro n _ rfl
    exact ⟨rfl, rfl, id⟩
  | differentiate mode =>
    exact (c.altered_differentiate mode).imp
      (fun _ _ _ h ↦ (Node.containerStepped_of_differentiated h).stepped)
      fun _ _ ↦ Node.containerStepped_of_differentiated

namespace Call

/-! ## Invariants of states -/

/-- What holds of every state of a run from `start`. -/
structure Reached (start c : Call) : Prop where
  /-- Keywords, fields, their order and all marshalls are those of the start. -/
  skeleton : c.skeleton = start.skeleton
  /-- Keywords differ, and so do the fields of a dictionary. -/
  distinct : c.Distinct
  /-- Dictionaries have no mapping. -/
  container : ∀ v ∈ c.roots, ∀ n fs, .dict n fs ∈ v.parts → n.mapping = .unresolved
  /-- Axes that are pinned are mapped onto, and derivatives are accessed where there are some. -/
  consistent : ∀ v ∈ c.roots, ∀ n ∈ v.nodes, n.Consistent

theorem reached_start {registry : MarshallRegistry} {a : Arguments} {c : Call}
    (h : ofArguments registry a = .ok c) : c.Reached c := by
  have hfresh := fresh_of_ofArguments h
  refine ⟨rfl, distinct_of_ofArguments h, fun v hv n fs hn ↦ ?_, fun v hv n hn ↦ ?_⟩
  · exact (hfresh v hv n (Variable.node_mem_nodes hn)).undecided.1
  · obtain ⟨name, path, marshall, value, -, rfl⟩ := hfresh v hv n hn
    exact ⟨nofun, fun hderivative ↦ absurd rfl hderivative⟩

/-- One pass keeps the invariants, also when it stops half-way. -/
theorem Reached.leave {start c : Call} (h : start.Reached c) (p : Pass) :
    start.Reached (p.leave c) := by
  have haltered := p.altered c
  refine ⟨?_, haltered.distinct h.distinct, fun w hw m gs hm ↦ ?_, fun w hw m hm ↦ ?_⟩
  · rw [← h.skeleton]
    exact haltered.skeleton_eq (fun _ _ _ hnm ↦ hnm.marshall) fun _ _ hnm ↦ hnm.marshall
  · obtain ⟨v, hv, t, ht, o?, htu⟩ := haltered.exists_part hw hm
    cases t with
    | leaf n =>
      obtain ⟨_, heq, -⟩ := Variable.altered_leaf_iff.mp htu
      cases heq
    | dict n fs =>
      obtain ⟨_, _, heq, hnm, -⟩ := Variable.altered_dict_iff.mp htu
      cases heq
      rw [hnm.mapping]
      exact h.container v hv n fs ht
  · rw [Variable.nodes_eq_map_parts] at hm
    obtain ⟨u, hu, rfl⟩ := List.mem_map.mp hm
    obtain ⟨v, hv, t, ht, o?, htu⟩ := haltered.exists_part hw hu
    have hnode := (htu.related (fun _ _ _ hnm ↦ hnm.consistent) fun _ _ hnm ↦ hnm.consistent).node
    exact hnode (h.consistent v hv t.node (Variable.node_mem_nodes ht))

theorem Reached.after {start c : Call} (h : start.Reached c) (ps : List Pass) :
    start.Reached (c.after ps) := by
  induction ps generalizing c with
  | nil => exact h
  | cons p ps ih => exact ih (h.leave p)

/-! ## Runs of a build -/

/-- A build leaves the state of a run. -/
theorem eq_after_of_build {lookup : Lookup} {settings : Settings} {f : Function} {a : Arguments}
    {o : Vectorization} {b : BuiltCall} (h : build lookup settings f a o = .ok b) :
    ∃ start, ofArguments lookup.registry a = .ok start ∧
      b.call = start.after [.bind f, .vectorize lookup o, .resolve,
        .align { rank := b.gridRank, strict := settings.strict }, .differentiate settings.mode] := by
  obtain ⟨c₃, hprepare, h⟩ := bind_eq_ok_iff.mp h
  obtain ⟨c₄, halign, h⟩ := bind_eq_ok_iff.mp h
  obtain ⟨c₅, hdifferentiate, h⟩ := bind_eq_ok_iff.mp h
  obtain ⟨m, -, h⟩ := bind_eq_ok_iff.mp h
  cases h
  obtain ⟨start, hstart, h⟩ := bind_eq_ok_iff.mp hprepare
  obtain ⟨c₁, hbind, h⟩ := bind_eq_ok_iff.mp h
  obtain ⟨c₂, hvectorize, hresolve⟩ := bind_eq_ok_iff.mp h
  rw [← Progress.result?_eq_some_iff] at hbind hvectorize hresolve halign hdifferentiate
  refine ⟨start, hstart, ?_⟩
  simp only [after, List.foldl_cons, List.foldl_nil, Pass.leave, Pass.run]
  rw [Progress.state_of_result? hbind, Progress.state_of_result? hvectorize,
    Progress.state_of_result? hresolve, Progress.state_of_result? halign,
    Progress.state_of_result? hdifferentiate]

theorem distinct_of_build {lookup : Lookup} {settings : Settings} {f : Function} {a : Arguments}
    {o : Vectorization} {b : BuiltCall} (h : build lookup settings f a o = .ok b) :
    b.call.Distinct := by
  obtain ⟨start, hstart, hb⟩ := eq_after_of_build h
  rw [hb]
  exact ((reached_start hstart).after _).distinct

/-! ## Mappings that have been given -/

theorem at?_empty (x : Place) : ({} : Vectorization).at? x = none := by
  rcases x with ⟨_ | _, _⟩ <;> rfl

/-- One pass keeps a mapping, unless it overrides the very place with axes. -/
theorem mapping_leave (p : Pass) {c : Call} {x : Place} {v : Variable} (hv : c.at? x = some v)
    (hresolved : v.node.mapping.isResolved) :
    ∃ w, (p.leave c).at? x = some w ∧ (w.node.mapping = v.node.mapping ∨
      ∃ lookup o l, p = .vectorize lookup o ∧ o.at? x = some (.pin (.axes l)) ∧
        w.node.mapping = .onto l) := by
  have hrel := (p.altered c).at? x
  rw [hv] at hrel
  obtain ⟨w, hw, hvw⟩ := exists_of_rel_left hrel
  refine ⟨w, hw, ?_⟩
  cases v with
  | dict n fs =>
    obtain ⟨m, gs, rfl, hnm, -⟩ := Variable.altered_dict_iff.mp hvw
    exact Or.inl hnm.mapping
  | leaf n =>
    obtain ⟨m, rfl, hnm⟩ := Variable.altered_leaf_iff.mp hvw
    refine (hnm.mapping hresolved).imp id ?_
    rintro ⟨l, hpin, hmapping⟩
    obtain ⟨o, ho, hpin⟩ := Option.bind_eq_some_iff.mp hpin
    cases o with
    | fields entries => cases hpin
    | pin q =>
      cases hpin
      cases p with
      | vectorize lookup overrides => exact ⟨lookup, overrides, l, rfl, ho, hmapping⟩
      | _ =>
        -- other passes apply no overrides
        change ({} : Vectorization).at? x = _ at ho
        rw [at?_empty] at ho
        cases ho

theorem mapping_after {ps : List Pass} {c : Call} {x : Place} {v : Variable}
    (hv : c.at? x = some v) (hresolved : v.node.mapping.isResolved) :
    ∃ w, (c.after ps).at? x = some w ∧ (w.node.mapping = v.node.mapping ∨
      ∃ lookup o l, .vectorize lookup o ∈ ps ∧ o.at? x = some (.pin (.axes l)) ∧
        w.node.mapping = .onto l) := by
  induction ps generalizing c v with
  | nil => exact ⟨v, hv, Or.inl rfl⟩
  | cons p ps ih =>
    obtain ⟨u, hu, hvu⟩ := mapping_leave p hv hresolved
    have hresolved' : u.node.mapping.isResolved := by
      rcases hvu with hkept | ⟨_, _, l, -, -, hl⟩
      · rwa [hkept]
      · rw [hl]
        rfl
    obtain ⟨w, hw, huw⟩ := ih hu hresolved'
    refine ⟨w, hw, ?_⟩
    -- the last of the passes that changed the mapping counts
    rcases huw with hkept | ⟨lookup, o, l, hp, ho, hl⟩
    · rw [hkept]
      refine hvu.imp id ?_
      rintro ⟨lookup, o, l, rfl, ho, hl⟩
      exact ⟨lookup, o, l, List.mem_cons_self, ho, hl⟩
    · exact Or.inr ⟨lookup, o, l, List.mem_cons_of_mem p hp, ho, hl⟩

/-! ## Signatures -/

theorem function?_traverse (c : Call) (f : Variable → Progress Variable) :
    (c.traverse f).state.function? = c.function? := by
  rw [traverse]
  exact Progress.state_andThen_cases (motive := fun c' : Call ↦ c'.function? = c.function?) rfl rfl

/-- Only binding and overriding show in the signature. -/
theorem signature_leave {p : Pass} (hbind : ∀ f, p ≠ .bind f)
    (hvectorize : ∀ lookup o, p ≠ .vectorize lookup o) (c : Call) :
    (p.leave c).signature = c.signature := by
  have hkept : ∀ {L D o}, c.Altered L D o (p.leave c) → (∀ p? n m, L p? n m → n.SameText m) →
      (∀ n m, D n m → n.SameText m) → (p.leave c).function? = c.function? →
        (p.leave c).signature = c.signature := by
    intro L D o haltered hL hD hfunction
    refine (signature_eq_of_related ?_ (haltered.related_roots hL hD)).symm
    rw [functionName, functionName, hfunction]
  cases p with
  | bind f => exact absurd rfl (hbind f)
  | vectorize lookup o => exact absurd rfl (hvectorize lookup o)
  | resolve =>
    refine hkept c.altered_resolve ?_ ?_ (function?_traverse c _)
    · rintro _ n _ ⟨_, _, rfl⟩
      exact ⟨rfl, rfl, rfl⟩
    · rintro n _ ⟨_, _, rfl⟩
      exact ⟨rfl, rfl, rfl⟩
  | align dispatch =>
    refine hkept (c.altered_align dispatch) ?_ ?_ (function?_traverse c _)
    · rintro _ n _ (rfl | ⟨-, _, rfl⟩) <;> exact ⟨rfl, rfl, rfl⟩
    · rintro n _ rfl
      exact ⟨rfl, rfl, rfl⟩
  | differentiate mode =>
    refine hkept (c.altered_differentiate mode) ?_ ?_ (function?_traverse c _)
    · rintro _ n _ (rfl | ⟨_, _, rfl⟩) <;> exact ⟨rfl, rfl, rfl⟩
    · rintro n _ (rfl | ⟨_, _, rfl⟩) <;> exact ⟨rfl, rfl, rfl⟩

/-! ## Runs -/

/-- What holds of a run from `start` that has taken the passes `earlier` and goes on with `later`. -/
structure SoundRun (start : Call) (earlier later : List Pass) : Prop where
  /-- The invariants hold of the state reached. -/
  reached : start.Reached (start.after earlier)
  /-- Every variable of that state is at a place. -/
  placed : ∀ v ∈ (start.after earlier).roots, ∀ u ∈ v.parts,
    ∃ x, (start.after earlier).at? x = some u
  /-- A mapping that is there can change only if a later pass overrides that place with axes, and to
  no other mapping than such axes. -/
  mapping : ∀ x v, (start.after earlier).at? x = some v → v.node.mapping.isResolved →
    ∃ w, (start.after (earlier ++ later)).at? x = some w ∧ (w.node.mapping = v.node.mapping ∨
      ∃ lookup o l, .vectorize lookup o ∈ later ∧ o.at? x = some (.pin (.axes l)) ∧
        w.node.mapping = .onto l)
  /-- A pass that neither binds nor overrides leaves the signature. -/
  signature : ∀ p : Pass, (∀ f, p ≠ .bind f) → (∀ lookup o, p ≠ .vectorize lookup o) →
    (start.after (earlier ++ [p])).signature = (start.after earlier).signature

/-- **Passes in any order.** Every run over a call of some arguments is sound, whichever passes it
takes, with whatever functions, overrides, dispatches and modes, and whether they go through or not:
the tree and what it carries stay, dictionaries never have a mapping, axes that are pinned are
mapped onto, a mapping once given changes through axes for its own place only, derivatives are
accessed where there are some, and only binding and overriding show in the signature. -/
theorem soundRun_of_ofArguments {registry : MarshallRegistry} {a : Arguments} {start : Call}
    (h : ofArguments registry a = .ok start) (earlier later : List Pass) :
    start.SoundRun earlier later := by
  have hreached := (reached_start h).after earlier
  refine ⟨hreached, fun v hv u hu ↦ hreached.distinct.exists_at? hv hu, fun x v hv hresolved ↦ ?_,
    fun p hbind hvectorize ↦ ?_⟩
  · rw [after_append]
    exact mapping_after hv hresolved
  · rw [after_append]
    exact signature_leave hbind hvectorize _

/-- A kernel that takes a number. -/
def scale : Function where
  name := "scale"
  params := [{ name := "x", type := .scalar .float }]

/-- A grid of numbers. -/
def grid : Arguments where
  args := [.buffer { element := .scalar .float, extents := [8, 4] }]

/-- A run that resolves too early, and overrides a call that is aligned already. -/
theorem soundRun_grid : ∃ start, ofArguments .builtin grid = .ok start ∧
    start.SoundRun [.resolve, .bind scale, .resolve, .align { rank := 2 }]
      [.vectorize ⟨.standard, .builtin⟩ { args := [.pin (.axes [1, 0])] }, .bind scale] :=
  ⟨_, rfl, @soundRun_of_ofArguments .builtin grid _ rfl _ _⟩

end Call

end KernelCall
