import KernelCall.Proofs.Call.Arguments
import KernelCall.Proofs.Variable.Altered

/-!
# Places in a call

A place is an argument, by its position or by its keyword, with the names of the fields that lead
from it to a variable inside. The overrides of a call are trees of the same kind, so that a place also
says which override is meant for a variable, and stays what it is while passes alter the call.

Names lead to the first field that has them. Since the fields of a dictionary differ in name, and so
do keywords, every variable of a call is at some place.
-/

namespace KernelCall

/-- An argument of a call. -/
inductive Root where
  | arg (index : Nat)
  | kwarg (name : String)
  deriving DecidableEq, Repr

/-- An argument, and the names of the fields that lead on from it. -/
structure Place where
  root : Root
  fields : List String := []
  deriving DecidableEq, Repr

/-- The override for an argument. -/
def Vectorization.root? (o : Vectorization) : Root → Option Override
  | .arg index => o.args[index]?
  | .kwarg name => Override.entry? o.kwargs name

/-- The override for a place. -/
def Vectorization.at? (o : Vectorization) (x : Place) : Option Override :=
  (o.root? x.root).bind (·.descend? x.fields)

/-! ## Fields that differ in name -/

namespace Variable

/-- No dictionary inside has two fields of one name. -/
def Distinct (v : Variable) : Prop :=
  ∀ n fs, dict n fs ∈ v.parts → (fs.map (·.name)).Nodup

theorem find?_name_of_mem {vs : List Variable} (h : (vs.map (·.name)).Nodup) {v : Variable}
    (hv : v ∈ vs) : vs.find? (·.name == v.name) = some v := by
  induction vs with
  | nil => cases hv
  | cons w vs ih =>
    rw [List.map_cons, List.nodup_cons] at h
    rcases List.mem_cons.mp hv with rfl | hv
    · rw [List.find?_cons, beq_self_eq_true]
    · have hne : w.name ≠ v.name := fun heq ↦ h.1 (heq ▸ List.mem_map_of_mem hv)
      rw [List.find?_cons, beq_eq_false_iff_ne.mpr hne]
      exact ih h.2 hv

/-- Names lead to every part. -/
theorem Distinct.exists_descend? {u v : Variable} (h : v.Distinct) (hu : u ∈ v.parts) :
    ∃ names, v.descend? names = some u := by
  induction v with
  | leaf n =>
    rw [mem_parts_leaf.mp hu]
    exact ⟨[], rfl⟩
  | dict n fs ih =>
    rcases mem_parts_dict.mp hu with rfl | ⟨f, hf, huf⟩
    · exact ⟨[], rfl⟩
    · have hdistinct : f.Distinct := fun m gs hm ↦
        h m gs (mem_parts_dict.mpr (Or.inr ⟨f, hf, hm⟩))
      obtain ⟨names, hnames⟩ := ih f hf hdistinct huf
      -- no field before `f` has its name
      have hfield : (dict n fs).field? f.name = some f :=
        find?_name_of_mem (h n fs (self_mem_parts _)) hf
      refine ⟨f.name :: names, ?_⟩
      change ((dict n fs).field? f.name).bind (·.descend? names) = some u
      rw [hfield, Option.bind_some, hnames]

theorem Altered.distinct {L : Option Pin → Node → Node → Prop} {D : Node → Node → Prop}
    {o? : Option Override} {v w : Variable} (h : Altered L D o? v w) (hv : v.Distinct) :
    w.Distinct := by
  intro m gs hm
  obtain ⟨t, ht, o?, halt⟩ := h.exists_part hm
  cases t with
  | leaf n =>
    obtain ⟨_, heq, -⟩ := altered_leaf_iff.mp halt
    cases heq
  | dict n fs =>
    obtain ⟨_, _, heq, -, hfg⟩ := altered_dict_iff.mp halt
    cases heq
    have hnames : fs.map (·.name) = gs.map (·.name) :=
      map_eq_of_forall₂ (hfg.imp fun _ _ hfg ↦ hfg.1.symm)
    rw [← hnames]
    exact hv n fs ht

end Variable

namespace Call

/-- The variable of an argument. -/
def root? (c : Call) : Root → Option Variable
  | .arg index => c.args[index]?
  | .kwarg name => c.kwarg? name

/-- The variable at a place. -/
def at? (c : Call) (x : Place) : Option Variable :=
  (c.root? x.root).bind (·.descend? x.fields)

/-- Neither keywords nor the fields of a dictionary repeat a name. -/
structure Distinct (c : Call) : Prop where
  keywords : (c.kwargs.map (·.name)).Nodup
  fields : ∀ v ∈ c.roots, v.Distinct

theorem distinct_of_ofArguments {registry : MarshallRegistry} {a : Arguments} {c : Call}
    (h : ofArguments registry a = .ok c) : c.Distinct where
  keywords := nodup_keywords h
  fields v hv n fs hn := by
    obtain ⟨path, name, value, hvalue⟩ := exists_value_of_mem_roots h hv
    exact Variable.nodup_of_ofValue hvalue hn

/-- **Every variable has a place.** -/
theorem Distinct.exists_at? {c : Call} (h : c.Distinct) {v u : Variable} (hv : v ∈ c.roots)
    (hu : u ∈ v.parts) : ∃ x, c.at? x = some u := by
  obtain ⟨names, hnames⟩ := (h.fields v hv).exists_descend? hu
  have hroot : ∃ r, c.root? r = some v := by
    rcases List.mem_append.mp hv with hv | hv
    · obtain ⟨index, hindex⟩ := List.mem_iff_getElem?.mp hv
      exact ⟨.arg index, hindex⟩
    · exact ⟨.kwarg v.name, Variable.find?_name_of_mem h.keywords hv⟩
  obtain ⟨r, hr⟩ := hroot
  refine ⟨⟨r, names⟩, ?_⟩
  rw [at?, hr, Option.bind_some, hnames]

/-! ## Calls altered place by place -/

/-- The second call is the first, altered place by place under overrides. -/
structure Altered (L : Option Pin → Node → Node → Prop) (D : Node → Node → Prop)
    (o : Vectorization) (c c' : Call) : Prop where
  args : ∀ i : Nat, Option.Rel (Variable.Altered L D o.args[i]?) c.args[i]? c'.args[i]?
  kwargs : List.Forall₂ (fun v w ↦ w.name = v.name ∧
    Variable.Altered L D (Override.entry? o.kwargs v.name) v w) c.kwargs c'.kwargs

section

variable {L L' : Option Pin → Node → Node → Prop} {D D' : Node → Node → Prop}
  {o : Vectorization} {c c' : Call}

theorem Altered.imp (h : c.Altered L D o c') (hL : ∀ p? n m, L p? n m → L' p? n m)
    (hD : ∀ n m, D n m → D' n m) : c.Altered L' D' o c' where
  args i := rel_imp (h.args i) fun _ _ hvw ↦ hvw.imp hL hD
  kwargs := h.kwargs.imp fun _ _ hvw ↦ ⟨hvw.1, hvw.2.imp hL hD⟩

theorem altered_self (hL : ∀ p? n, L p? n n) (hD : ∀ n, D n n) (o : Vectorization) (c : Call) :
    c.Altered L D o c where
  args i := by
    cases c.args[i]? with
    | none => exact .none
    | some v => exact .some (Variable.altered_self hL hD _ v)
  kwargs := List.forall₂_same.mpr fun v _ ↦ ⟨rfl, Variable.altered_self hL hD _ v⟩

theorem Altered.root? (h : c.Altered L D o c') (r : Root) :
    Option.Rel (Variable.Altered L D (o.root? r)) (c.root? r) (c'.root? r) := by
  cases r with
  | arg index => exact h.args index
  | kwarg name =>
    refine rel_imp (Variable.rel_find?_name h.kwargs name) ?_
    rintro v w ⟨rfl, hvw⟩
    exact hvw

/-- **Alterations happen in place.** What is at a place is altered under the override for the
place. -/
theorem Altered.at? (h : c.Altered L D o c') (x : Place) :
    Option.Rel (Variable.Altered L D (o.at? x)) (c.at? x) (c'.at? x) :=
  rel_bind (h.root? x.root) fun _ _ hvw ↦ hvw.descend? x.fields

theorem Altered.forall₂_args (h : c.Altered L D o c') :
    List.Forall₂ (fun v w ↦ ∃ o?, Variable.Altered L D o? v w) c.args c'.args :=
  forall₂_of_rel_getElem? fun i ↦ rel_imp (h.args i) fun _ _ hvw ↦ ⟨_, hvw⟩

/-- Calls altered in place have related variables. -/
theorem Altered.related_roots {R : Node → Node → Prop} (h : c.Altered L D o c')
    (hL : ∀ p? n m, L p? n m → R n m) (hD : ∀ n m, D n m → R n m) :
    List.Forall₂ (Variable.Related R) c.roots c'.roots := by
  refine List.rel_append (h.forall₂_args.imp ?_) (h.kwargs.imp ?_)
  · rintro v w ⟨o?, hvw⟩
    exact hvw.related hL hD
  · rintro v w ⟨-, hvw⟩
    exact hvw.related hL hD

theorem Altered.exists_root (h : c.Altered L D o c') {w : Variable} (hw : w ∈ c'.roots) :
    ∃ v ∈ c.roots, ∃ o?, Variable.Altered L D o? v w := by
  rcases List.mem_append.mp hw with hw | hw
  · obtain ⟨v, hv, hvw⟩ := exists_of_forall₂_right h.forall₂_args hw
    exact ⟨v, List.mem_append_left _ hv, hvw⟩
  · obtain ⟨v, hv, -, hvw⟩ := exists_of_forall₂_right h.kwargs hw
    exact ⟨v, List.mem_append_right _ hv, _, hvw⟩

theorem Altered.exists_part (h : c.Altered L D o c') {w u : Variable} (hw : w ∈ c'.roots)
    (hu : u ∈ w.parts) : ∃ v ∈ c.roots, ∃ t ∈ v.parts, ∃ o?, Variable.Altered L D o? t u := by
  obtain ⟨v, hv, o?, hvw⟩ := h.exists_root hw
  obtain ⟨t, ht, htu⟩ := hvw.exists_part hu
  exact ⟨v, hv, t, ht, htu⟩

theorem Altered.distinct (h : c.Altered L D o c') (hc : c.Distinct) : c'.Distinct where
  keywords := by
    have hnames : c.kwargs.map (·.name) = c'.kwargs.map (·.name) :=
      map_eq_of_forall₂ (h.kwargs.imp fun _ _ hvw ↦ hvw.1.symm)
    rw [← hnames]
    exact hc.keywords
  fields w hw := by
    obtain ⟨v, hv, o?, hvw⟩ := h.exists_root hw
    exact hvw.distinct (hc.fields v hv)

end

/-! ## Skeletons -/

/-- What no pass changes of a call: the skeletons of its variables, with the keywords. -/
def skeleton (c : Call) : List Skeleton × List (String × Skeleton) :=
  (c.args.map Variable.skeleton, c.kwargs.map fun v ↦ (v.name, v.skeleton))

theorem Altered.skeleton_eq {L : Option Pin → Node → Node → Prop} {D : Node → Node → Prop}
    (hL : ∀ p? n m, L p? n m → m.marshall = n.marshall)
    (hD : ∀ n m, D n m → m.marshall = n.marshall) {o : Vectorization} {c c' : Call}
    (h : c.Altered L D o c') : c'.skeleton = c.skeleton := by
  refine Prod.ext ?_ ?_
  · refine (map_eq_of_forall₂ (h.forall₂_args.imp ?_)).symm
    rintro v w ⟨o?, hvw⟩
    exact (hvw.skeleton_eq hL hD).symm
  · refine (map_eq_of_forall₂ (h.kwargs.imp ?_)).symm
    rintro v w ⟨hname, hvw⟩
    rw [hname, hvw.skeleton_eq hL hD]

end Call

end KernelCall
