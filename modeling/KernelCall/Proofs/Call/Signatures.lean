import KernelCall.Proofs.Call.Fitting
import KernelCall.Proofs.Call.Run

/-!
# What signatures tell apart

Two calls have one signature exactly when their functions have one name and their variables, from left
to right, have the same trees and at each node the same path, host type and pin. Nothing is assumed of
paths: they are made of the names of nodes in every state of a run, also after a function did not
fit. So it suffices that names are free of the marks that structure a signature.
-/

namespace KernelCall

open Text

/-! ## Names -/

theorem isPlain_subpath {path name : String} (hpath : IsPlain path) (hname : IsPlain name) :
    IsPlain (subpath path name) := by
  intro c hc
  rw [subpath, String.toList_append, String.toList_append, List.mem_append, List.mem_append] at hc
  rcases hc with (hc | hc) | hc
  · exact hpath c hc
  · rw [List.mem_singleton.mp hc]
    decide
  · exact hname c hc

namespace Variable

/-- All names in the variable are free of marks. -/
def PlainNames (v : Variable) : Prop := ∀ n ∈ v.nodes, IsPlain n.name

/-- All paths in the variable are free of marks. -/
def PlainPaths (v : Variable) : Prop := ∀ n ∈ v.nodes, IsPlain n.path

theorem forall_nodes_iff {P : Node → Prop} {v : Variable} :
    (∀ n ∈ v.nodes, P n) ↔ P v.node ∧ ∀ f ∈ v.fields, ∀ n ∈ f.nodes, P n := by
  cases v with
  | leaf n => simp [fields]
  | dict n fs => rw [nodes_dict, List.forall_mem_cons, List.forall_mem_flatMap]; rfl

theorem plainNames_dict_iff {n : Node} {fs : List Variable} :
    (dict n fs).PlainNames ↔ IsPlain n.name ∧ ∀ f ∈ fs, f.PlainNames :=
  forall_nodes_iff

theorem plainPaths_dict_iff {n : Node} {fs : List Variable} :
    (dict n fs).PlainPaths ↔ IsPlain n.path ∧ ∀ f ∈ fs, f.PlainPaths :=
  forall_nodes_iff

instance : DecidablePred PlainNames := fun v ↦
  inferInstanceAs (Decidable (∀ n ∈ v.nodes, IsPlain n.name))

theorem PlainNames.name {v : Variable} (h : v.PlainNames) : IsPlain v.name :=
  (forall_nodes_iff.mp h).1

/-- The paths of values are made of the path they start from and names. -/
theorem plainPaths_of_ofValue {registry : MarshallRegistry} {path name : String} {h : HostValue}
    {v : Variable} (hv : ofValue registry path name h = .ok v) (hpath : IsPlain path)
    (hnames : v.PlainNames) : v.PlainPaths := by
  induction h using HostValue.entrywise generalizing path name v with
  | plain h hkind =>
    obtain ⟨m, -, rfl⟩ := ofValue_eq_leaf hkind hv
    exact List.forall_mem_singleton.mpr hpath
  | dict entries ih =>
    obtain ⟨m, fs, -, hfs, rfl⟩ := ofValue_eq_dict hv
    rw [plainNames_dict_iff] at hnames
    refine plainPaths_dict_iff.mpr ⟨hpath, fun f hf ↦ ?_⟩
    obtain ⟨e, he, hef⟩ := exists_of_forall₂_right (ofEntries_eq_ok hfs).1 hf
    have hfield := hnames.2 f hf
    have hkey : IsPlain e.1 := name_of_ofValue hef ▸ hfield.name
    exact ih e he hef (isPlain_subpath hpath hkey) hfield

/-- Binding writes paths that start from the given one. Where it has not come to, paths stay. -/
theorem plainPaths_bindTo {v : Variable} {path : String} (hpath : IsPlain path)
    (hnames : v.PlainNames) (hpaths : v.PlainPaths) (target : Target) :
    (v.bindTo path target).state.PlainPaths := by
  induction v generalizing path target with
  | leaf n => exact List.forall_mem_singleton.mpr hpath
  | dict n fs ih =>
    rw [plainNames_dict_iff] at hnames
    rw [plainPaths_dict_iff] at hpaths
    -- fields are bound from left to right; those behind one that fails keep their paths
    have hfields : ∀ vs : List Variable, (∀ v ∈ vs, v ∈ fs) →
        ∀ w ∈ (bindFields path target vs).state, w.PlainPaths := by
      intro vs hvs
      induction vs with
      | nil => exact List.forall_mem_nil _
      | cons v vs ihvs =>
        have hold : ∀ u ∈ v :: vs, u.PlainPaths := fun u hu ↦ hpaths.2 u (hvs u hu)
        rw [List.forall_mem_cons] at hvs hold
        have hname := (hnames.2 v hvs.1).name
        rw [bindFields]
        split
        · exact List.forall_mem_cons.mpr hold
        · have hfirst := ih v hvs.1 (isPlain_subpath hpath hname) (hnames.2 v hvs.1) hold.1
          refine Progress.state_andThen_cases (motive := fun ws : List Variable ↦
            ∀ w ∈ ws, w.PlainPaths) ?_ ?_
          · exact List.forall_mem_cons.mpr ⟨hfirst _, hold.2⟩
          · exact List.forall_mem_cons.mpr ⟨hfirst _, ihvs hvs.2⟩
    have hdict := fun target? ↦ plainPaths_dict_iff (n := { n with path, target? }).mpr
      ⟨hpath, hfields fs fun _ ↦ id⟩
    rw [bindTo]
    exact Progress.state_andThen_cases (motive := PlainPaths) (hdict _) (hdict _)

/-- **A root takes the path that its name is**, so paths are free of marks if names are. What is left
of earlier paths is made of the names of fields, which do not change. -/
theorem plainPaths_bindRoot {v : Variable} (hv : v.PlainNames → v.PlainPaths) {name : String}
    {target : Target} {index? : Option Nat}
    (hnames : (v.bindRoot name target index?).state.PlainNames) :
    (v.bindRoot name target index?).state.PlainPaths := by
  have hroot : IsPlain (v.rootName name) := by
    rw [rootName, ← name_bindRoot v name target index?]
    exact hnames.name
  have hnamed : (v.mapNode fun n ↦
      { n with name := v.rootName name, paramIndex? := index? }).PlainNames := by
    intro n hn
    obtain ⟨m, hm, hnm⟩ := exists_of_forall₂_left
      (related_bindTo (v.rootName name) target _).forall₂_nodes hn
    rw [← hnm.name]
    exact hnames m hm
  -- the root had no name, or it had the name that it has now
  have hown : v.PlainNames := by
    rw [PlainNames, forall_nodes_iff] at hnamed ⊢
    refine ⟨?_, by cases v <;> exact hnamed.2⟩
    by_cases hempty : v.name = ""
    · change IsPlain v.name
      rw [hempty]
      decide
    · rwa [rootName, if_neg (by rwa [String.isEmpty_iff])] at hroot
  have hpaths : (v.mapNode fun n ↦
      { n with name := v.rootName name, paramIndex? := index? }).PlainPaths := by
    have hold := hv hown
    rw [PlainPaths, forall_nodes_iff] at hold ⊢
    cases v <;> exact hold
  exact plainPaths_bindTo hroot hnamed hpaths target

theorem plainPaths_of_related {v w : Variable}
    (h : Related (fun n m ↦ m.name = n.name ∧ m.path = n.path) v w)
    (hv : v.PlainNames → v.PlainPaths) (hw : w.PlainNames) : w.PlainPaths := by
  have hnames : v.PlainNames := by
    intro n hn
    obtain ⟨m, hm, hnm⟩ := exists_of_forall₂_left h.forall₂_nodes hn
    rw [← hnm.1]
    exact hw m hm
  refine h.forall_nodes (fun n m hnm hn ↦ ?_) (hv hnames)
  rw [hnm.2]
  exact hn

end Variable

namespace Call

/-! ## Paths in runs -/

theorem forall₂_roots_bind {R : Variable → Variable → Prop} (hself : ∀ v, R v v)
    (hroot : ∀ v name target index?, R v (v.bindRoot name target index?).state) (f : Function)
    (c : Call) : List.Forall₂ R c.roots (c.bind f).state.roots := by
  have hargs := forall₂_state_bindPositional hself hroot 0 c.args f.params
  have hkwargs : List.Forall₂ R c.kwargs (Progress.traverse (bindKeyword f) c.kwargs).state := by
    refine Progress.forall₂_state_traverse (fun v _ ↦ ?_) fun v _ ↦ hself v
    rw [bindKeyword_eq]
    split
    · exact hroot v _ _ _
    · exact hself v
  have hselves : ∀ vs : List Variable, List.Forall₂ R vs vs := fun vs ↦
    List.forall₂_same.mpr fun v _ ↦ hself v
  rw [bind]
  split
  · exact hselves c.roots
  · refine Progress.state_andThen_cases (motive := fun c' : Call ↦ List.Forall₂ R c.roots c'.roots)
      ?_ (Progress.state_andThen_cases (motive := fun c' : Call ↦ List.Forall₂ R c.roots c'.roots)
        ?_ ?_)
    · exact List.rel_append hargs (hselves c.kwargs)
    · exact List.rel_append hargs hkwargs
    · exact List.rel_append hargs hkwargs

/-- Only binding decides on names and paths. -/
theorem related_roots_leave {p : Pass} (hbind : ∀ f, p ≠ .bind f) (c : Call) :
    List.Forall₂ (Variable.Related fun n m ↦ m.name = n.name ∧ m.path = n.path) c.roots
      (p.leave c).roots := by
  have hpin : ∀ {lookup : Lookup} {q : Pin} {n m : Node}, n.pin lookup q = .ok m →
      m.name = n.name ∧ m.path = n.path := by
    intro lookup q n m h
    obtain ⟨t, -, rfl⟩ := Node.pin_eq_ok_iff.mp h
    exact ⟨rfl, rfl⟩
  cases p with
  | bind f => exact absurd rfl (hbind f)
  | vectorize lookup o =>
    refine (c.altered_vectorize lookup o).related_roots ?_ ?_
    · rintro _ n m (rfl | ⟨q, -, h⟩)
      · exact ⟨rfl, rfl⟩
      · exact hpin h
    · rintro n m (rfl | ⟨q, -, h⟩)
      · exact ⟨rfl, rfl⟩
      · exact hpin h
  | resolve =>
    refine c.altered_resolve.related_roots ?_ ?_
    · rintro _ n _ ⟨_, _, rfl⟩
      exact ⟨rfl, rfl⟩
    · rintro n _ ⟨_, _, rfl⟩
      exact ⟨rfl, rfl⟩
  | align dispatch =>
    refine (c.altered_align dispatch).related_roots ?_ ?_
    · rintro _ n _ (rfl | ⟨-, _, rfl⟩) <;> exact ⟨rfl, rfl⟩
    · rintro n _ rfl
      exact ⟨rfl, rfl⟩
  | differentiate mode =>
    refine (c.altered_differentiate mode).related_roots ?_ ?_
    · rintro _ n _ (rfl | ⟨_, _, rfl⟩) <;> exact ⟨rfl, rfl⟩
    · rintro n _ (rfl | ⟨_, _, rfl⟩) <;> exact ⟨rfl, rfl⟩

theorem plainPaths_leave (p : Pass) {c : Call}
    (h : ∀ v ∈ c.roots, v.PlainNames → v.PlainPaths) :
    ∀ w ∈ (p.leave c).roots, w.PlainNames → w.PlainPaths := by
  intro w hw
  by_cases hbind : ∃ f, p = .bind f
  · obtain ⟨f, rfl⟩ := hbind
    obtain ⟨v, hv, hvw⟩ := exists_of_forall₂_right (forall₂_roots_bind
      (R := fun v w ↦ (v.PlainNames → v.PlainPaths) → w.PlainNames → w.PlainPaths)
      (fun _ ↦ id) (fun _ _ _ _ hv ↦ Variable.plainPaths_bindRoot hv) f c) hw
    exact hvw (h v hv)
  · obtain ⟨v, hv, hvw⟩ := exists_of_forall₂_right
      (related_roots_leave (not_exists.mp hbind) c) hw
    exact Variable.plainPaths_of_related hvw (h v hv)

/-- **Paths are made of names** in every state of a run. -/
theorem plainPaths_after {registry : MarshallRegistry} {a : Arguments} {start : Call}
    (h : ofArguments registry a = .ok start) (ps : List Pass) :
    ∀ v ∈ (start.after ps).roots, v.PlainNames → v.PlainPaths := by
  have hstart : ∀ v ∈ start.roots, v.PlainNames → v.PlainPaths := by
    intro v hv hnames
    obtain ⟨hargs, hkwargs⟩ := ofArguments_eq_ok h
    rcases List.mem_append.mp hv with hv | hv
    · obtain ⟨value, -, hvalue⟩ := exists_of_mem_mapM hargs hv
      exact Variable.plainPaths_of_ofValue (toOption_eq_some_iff.mp hvalue) (by decide) hnames
    · obtain ⟨e, -, he⟩ := exists_of_forall₂_right (ofKeywords_eq_ok hkwargs).1 hv
      have hkey : IsPlain e.1 := Variable.name_of_ofValue he ▸ hnames.name
      exact Variable.plainPaths_of_ofValue he hkey hnames
  clear h
  induction ps generalizing start with
  | nil => exact hstart
  | cons p ps ih => exact ih (plainPaths_leave p hstart)

/-! ## Signatures -/

/-- What a signature is written with is free of marks: the name of the function, and of each node its
name, its host type, and a type that it is pinned to. -/
structure Marked (c : Call) : Prop where
  functionName : IsPlain c.functionName
  names : ∀ v ∈ c.roots, v.PlainNames
  typeNames : ∀ v ∈ c.roots, ∀ n ∈ v.nodes, IsPlain n.marshall.typeName
  pins : ∀ v ∈ c.roots, ∀ n ∈ v.nodes, ∀ p ∈ n.pin?, p.Legible

/-- A signature begins with the name of the function. -/
theorem functionName_of_signature {c c' : Call} (hc : IsPlain c.functionName)
    (hc' : IsPlain c'.functionName) (h : c.signature = c'.signature) :
    c.functionName = c'.functionName := by
  have hopen : ∀ r : List Char, Halts (fun c ↦ isMark c = false) ('(' :: r) := fun r ↦
    halts_cons (by decide) (by decide)
  have h := congrArg String.toList h
  simp only [signature, String.toList_append, List.append_assoc] at h
  exact String.toList_inj.mp (token_inj (by decide) hc hc' (hopen _) (hopen _) h).1

/-- **Signatures are unambiguous.** Take any states of two runs in which names of functions and nodes,
host types and pins to types are free of the marks that structure a signature; pins to host kinds are
fixed, and may have a colon. The states have one signature if and only if the functions have one name
and the roots, from left to right, are the same trees, a dictionary without fields not being a leaf,
with the same path, host type and pin as text at each node. -/
theorem signature_eq_iff {registry registry' : MarshallRegistry} {a a' : Arguments}
    {start start' : Call} (h : ofArguments registry a = .ok start)
    (h' : ofArguments registry' a' = .ok start') {ps ps' : List Pass}
    (hc : (start.after ps).Marked) (hc' : (start'.after ps').Marked) :
    (start.after ps).signature = (start'.after ps').signature ↔
      (start.after ps).functionName = (start'.after ps').functionName ∧
        List.Forall₂ (Variable.Related Node.SameText) (start.after ps).roots
          (start'.after ps').roots := by
  have hlegible : ∀ {c : Call}, c.Marked → (∀ v ∈ c.roots, v.PlainNames → v.PlainPaths) →
      c.Legible := fun hc hpaths v hv n hn ↦
    ⟨hpaths v hv (hc.names v hv) n hn, hc.typeNames v hv n hn, hc.pins v hv n hn⟩
  constructor
  · intro heq
    have hname := functionName_of_signature hc.functionName hc'.functionName heq
    exact ⟨hname, related_of_signature (hlegible hc (plainPaths_after h ps))
      (hlegible hc' (plainPaths_after h' ps')) hname heq⟩
  · rintro ⟨hname, hrelated⟩
    exact signature_eq_of_related hname hrelated

/-- A kernel that takes a point. -/
def trace : Function where
  name := "trace"
  params := [
    { name := "p",
      type := .struct "Point" [("x", .scalar .float), ("y", .scalar .float)] true }]

/-- A point with a row of first coordinates. -/
def rowPoint : Arguments where
  args := [.dict [("x", .buffer { element := .scalar .float, extents := [3] }), ("y", .float 1)]]

/-- One coordinate is pinned to an axis, the other to a kind. -/
def rowOverrides : Vectorization where
  args := [.fields [("x", .pin (.axes [0])), ("y", .pin (.hostKind .float))]]

/-- A bound point, and the same with overrides. -/
theorem signature_eq_iff_rowPoint : ∃ start, ofArguments .builtin rowPoint = .ok start ∧
    ((start.after [.bind trace]).signature =
      (start.after [.bind trace, .vectorize ⟨.standard, .builtin⟩ rowOverrides]).signature ↔
        (start.after [.bind trace]).functionName =
          (start.after [.bind trace, .vectorize ⟨.standard, .builtin⟩ rowOverrides]).functionName ∧
        List.Forall₂ (Variable.Related Node.SameText) (start.after [.bind trace]).roots
          (start.after [.bind trace, .vectorize ⟨.standard, .builtin⟩ rowOverrides]).roots) := by
  refine ⟨_, rfl, @signature_eq_iff .builtin .builtin rowPoint rowPoint _ _ rfl rfl
    [.bind trace] [.bind trace, .vectorize ⟨.standard, .builtin⟩ rowOverrides] ?_ ?_⟩
  · exact ⟨by decide +kernel, by decide +kernel, by decide +kernel, by decide +kernel⟩
  · exact ⟨by decide +kernel, by decide +kernel, by decide +kernel, by decide +kernel⟩

end Call

end KernelCall
