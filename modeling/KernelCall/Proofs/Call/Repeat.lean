import KernelCall.Proofs.Call.GivenRank
import KernelCall.Proofs.Call.Rebind

/-!
# Passes once more

A pass that has gone through has nothing left to do: taken once more, with all that it was given, it
goes through again and leaves the call as it is. This holds of every state that a run comes to,
whatever stopped on the way there.

The second time a pass finds what it has written itself, and each of them looks there. Resolving
takes a vector type for a pin and does not ask the marshall again; aligning takes a mapping for one
that was given and still checks the rank; binding finds names that it would have given, and writes the
paths and targets that it has written. So the proof is one lemma for what a pass does to a node, and
the walk over the tree adds nothing. Overriding is the pass that is not a walk: keyword overrides are
applied one after the other, and only because keywords do not repeat does each of them find its
variable as it has left it.
-/

namespace KernelCall

/-! ## Nodes -/

namespace Node

variable {n m : Node}

/-- A pin looks at the marshall, which it does not change, and axes give the same mapping again. -/
theorem pin_of_pin {lookup : Lookup} {p : Pin} (h : n.pin lookup p = .ok m) :
    m.pin lookup p = .ok m := by
  obtain ⟨t, ht, rfl⟩ := pin_eq_ok_iff.mp h
  refine pin_eq_ok_iff.mpr ⟨t, ht, ?_⟩
  cases p <;> rfl

theorem pinContainer_of_pinContainer {lookup : Lookup} {entries : List (String × Override)}
    (h : n.pinContainer lookup entries = .ok m) : m.pinContainer lookup entries = .ok m := by
  rw [pinContainer] at h ⊢
  split at h
  · rfl
  · cases h
  · cases h
  · exact pin_of_pin h

/-- A leaf keeps a type that it has, provided that it is what the axes leave if there are some. -/
theorem assignType_eq_self {t : KernelType} (ht : n.vectorType? = some t)
    (haxes : n.mapping.isResolved → n.marshall.reduce n.mapping.rank = .ok t) :
    n.assignType = .ok n := by
  by_cases hmapping : n.mapping.isResolved
  · have hself : { n with vectorType? := some t } = n := by rw [← ht]
    rw [assignType, if_pos hmapping, haxes hmapping]
    exact congrArg Except.ok hself
  · exact assignType_of_vectorType? (Mapping.eq_unresolved hmapping) ht

theorem reduce_of_assignType (h : n.assignType = .ok m) (hmapping : n.mapping.isResolved) :
    ∃ t, m.vectorType? = some t ∧ n.marshall.reduce n.mapping.rank = .ok t := by
  rw [← toOption_eq_some_iff, toOption_assignType_of_isResolved hmapping] at h
  obtain ⟨t, ht, rfl⟩ := Option.map_eq_some_iff.mp h
  exact ⟨t, rfl, toOption_eq_some_iff.mp ht⟩

/-- The second time a leaf has the type that it was given, or was taken to have. -/
theorem resolve_of_resolve (h : n.resolve.result? = some m) : m.resolve.result? = some m := by
  rw [result?_resolve_eq_some_iff] at h ⊢
  obtain ⟨k, hk, hm⟩ := h
  have hkn := resolved_of_assignType hk
  obtain ⟨t, d, ht, hd, rfl⟩ := assignDimensionality_eq_ok_iff.mp hm
  have htype : assignType { k with vectorType? := some t, dimensionality? := some d } =
      .ok { k with vectorType? := some t, dimensionality? := some d } := by
    refine assignType_eq_self rfl fun hmapping ↦ ?_
    obtain ⟨_, _, rfl⟩ := hkn
    obtain ⟨s, hs, hreduce⟩ := reduce_of_assignType hk hmapping
    rw [hs] at ht
    cases ht
    exact hreduce
  exact ⟨_, htype, assignDimensionality_eq_ok_iff.mpr ⟨t, d, rfl, hd, rfl⟩⟩

theorem resolveContainer_of_resolveContainer {fs : List Variable}
    (h : n.resolveContainer fs = .ok m) : m.resolveContainer fs = .ok m := by
  rw [resolveContainer_eq_ok_iff] at h ⊢
  obtain ⟨t, -, rfl⟩ := h
  exact ⟨t, rfl, rfl⟩

/-- The second time a leaf has a mapping, and passes the check that it has passed. -/
theorem align_of_align {dispatch : Dispatch} (h : n.align dispatch = .ok m) :
    m.align dispatch = .ok m := by
  obtain ⟨d, hd, haccepted, -, rfl⟩ := align_eq_ok_iff.mp h
  have hmapping := n.isResolved_placed d dispatch.rank
  refine align_eq_ok_iff.mpr ⟨d, ?_, ?_, Or.inl hmapping, if_pos hmapping⟩
  · rw [dimensionality?_placed, hd]
  · rwa [pin?_placed]

/-- Derivatives are decided by what the decision leaves alone. -/
theorem differentiate_of_differentiate {mode : CallMode} (h : n.differentiate mode = .ok m) :
    m.differentiate mode = .ok m := by
  obtain ⟨t, ht, h⟩ := bind_eq_ok_iff.mp h
  cases h
  exact bind_eq_ok_iff.mpr ⟨t, ht, rfl⟩

end Node

/-! ## Variables -/

namespace Variable

variable {v w : Variable}

/-- A root that is bound has the name that binding would give it. -/
theorem bindRoot_of_bindRoot {name : String} {target : Target} {index? : Option Nat}
    (h : (v.bindRoot name target index?).result? = some w) :
    (w.bindRoot name target index?).result? = some w := by
  have hname : w.rootName name = v.rootName name := by
    have hw : w.name = v.rootName name := (seated_rootName h).1.1
    by_cases hempty : v.name = ""
    · rw [rootName_of_name (Or.inl hempty)] at hw ⊢
      exact rootName_of_name (Or.inr hw)
    · have hown : v.rootName name = v.name := if_neg (by rwa [String.isEmpty_iff])
      rw [hown] at hw ⊢
      rw [rootName, hw]
      exact hown
  have hreseated := v.reseated_bindRoot name target index?
  rw [Progress.state_of_result? h] at hreseated
  rw [hreseated.result?_bindRoot, hname]
  exact h

theorem vectorizeBy?_of_vectorizeBy? {lookup : Lookup} {o? : Option Override}
    (h : v.vectorizeBy? lookup o? = some w) : w.vectorizeBy? lookup o? = some w := by
  induction v generalizing o? w with
  | leaf n =>
    rcases o? with _ | (p | entries)
    · rfl
    · rw [vectorizeBy?, vectorize, Progress.result?_map, Progress.result?_ofExcept] at h
      obtain ⟨m, hm, rfl⟩ := Option.map_eq_some_iff.mp h
      have hself := Node.pin_of_pin (toOption_eq_some_iff.mp hm)
      rw [vectorizeBy?, vectorize, hself]
      rfl
    · cases h
  | dict n fs ih =>
    rcases o? with _ | (p | entries)
    · rfl
    · cases h
    rw [vectorizeBy?, vectorize] at h
    cases hkey : Override.unknownKey? entries fs with
    | some key =>
      rw [hkey] at h
      cases h
    | none =>
      rw [hkey] at h
      simp only [Progress.result?_andThen, Progress.result?_map, Progress.result?_ofExcept,
        result?_vectorizeFields] at h
      obtain ⟨gs, hgs, h⟩ := Option.bind_eq_some_iff.mp h
      obtain ⟨m, hm, rfl⟩ := Option.map_eq_some_iff.mp h
      have hnames : gs.map (·.name) = fs.map (·.name) :=
        Call.names_of_mapM (fun _ _ ↦ name_of_vectorizeBy?) hgs
      have hfields : (vectorizeFields lookup entries gs).result? = some gs := by
        rw [result?_vectorizeFields]
        refine mapM_of_mapM hgs fun f hf g hfg ↦ ?_
        rw [name_of_vectorizeBy? hfg]
        exact ih f hf hfg
      have hself := Node.pinContainer_of_pinContainer (toOption_eq_some_iff.mp hm)
      rw [vectorizeBy?, vectorize, Override.unknownKey?_congr hnames, hkey]
      simp only [Progress.result?_andThen, Progress.result?_map, Progress.result?_ofExcept, hfields,
        hself]
      rfl

end Variable

/-! ## Calls -/

namespace Call

/-! ### Binding -/

theorem bindPositional_of_bindPositional {index : Nat} {vs ws : List Variable}
    {ps : List Parameter} (h : (bindPositional index vs ps).result? = some ws) :
    (bindPositional index ws ps).result? = some ws := by
  induction vs generalizing index ps ws with
  | nil =>
    obtain rfl : ws = [] := by rcases ps with _ | ⟨p, ps⟩ <;> cases h <;> rfl
    exact h
  | cons v vs ih =>
    rcases ps with _ | ⟨p, ps⟩
    · cases h
      rfl
    rw [bindPositional, Progress.result?_andThen] at h
    simp only [Progress.result?_map] at h
    obtain ⟨w, us, hw, hus, rfl⟩ := bind_map_cons_eq_some_iff.mp h
    rw [bindPositional, Progress.result?_andThen]
    simp only [Progress.result?_map]
    exact bind_map_cons_eq_some_iff.mpr ⟨w, us, Variable.bindRoot_of_bindRoot hw, ih hus, rfl⟩

/-- A keyword variable keeps its keyword, and with it its seat. -/
theorem bindKeyword_of_bindKeyword {f : Function} {v w : Variable}
    (h : (bindKeyword f v).result? = some w) : (bindKeyword f w).result? = some w := by
  have hname := (altered_bindKeyword f v).1
  rw [Progress.state_of_result? h] at hname
  rw [bindKeyword_eq] at h ⊢
  rw [hname]
  cases hseat : f.seat? v.name with
  | none => rfl
  | some seat =>
    rw [hseat] at h
    exact Variable.bindRoot_of_bindRoot h

theorem bind_of_bind {f : Function} {c c' : Call} (h : (c.bind f).result? = some c') :
    (c'.bind f).result? = some c' := by
  have hattempted := attempted_bind f c
  rw [Progress.state_of_result? h] at hattempted
  have hkeywords : c'.kwargs.map (·.name) = c.kwargs.map (·.name) :=
    (map_eq_of_forall₂ (hattempted.keyword.imp fun _ _ hvw ↦ hvw.1.symm)).symm
  have harity := checkArity_congr (f := f) hattempted.positional.length_eq.symm hkeywords
  rw [bind] at h ⊢
  rw [harity]
  split at h
  · cases h
  · simp only [Progress.result?_andThen, Progress.result?_traverse, Progress.result?_done] at h ⊢
    obtain ⟨args, hargs, h⟩ := Option.bind_eq_some_iff.mp h
    obtain ⟨kwargs, hkwargs, h⟩ := Option.bind_eq_some_iff.mp h
    cases h
    rw [bindPositional_of_bindPositional hargs, Option.bind_some,
      mapM_of_mapM hkwargs fun _ _ _ ↦ bindKeyword_of_bindKeyword]
    rfl

/-! ### Overriding -/

theorem vectorizePositional_of_vectorizePositional {lookup : Lookup} {vs ws : List Variable}
    {os : List Override} (h : (vectorizePositional lookup vs os).result? = some ws) :
    (vectorizePositional lookup ws os).result? = some ws := by
  induction vs generalizing os ws with
  | nil =>
    obtain rfl : ws = [] := by cases os <;> cases h <;> rfl
    exact h
  | cons v vs ih =>
    rw [result?_vectorizePositional_cons] at h
    obtain ⟨w, us, hw, hus, rfl⟩ := bind_map_cons_eq_some_iff.mp h
    rw [result?_vectorizePositional_cons]
    exact bind_map_cons_eq_some_iff.mpr
      ⟨w, us, Variable.vectorizeBy?_of_vectorizeBy? hw, ih hus, rfl⟩

/-- Each variable is treated by the override of its name, once in each pass. -/
theorem vectorizeKeywords_of_vectorizeKeywords {lookup : Lookup} {os : List (String × Override)}
    (hos : (os.map (·.1)).Nodup) {vs ws : List Variable} (hvs : (vs.map (·.name)).Nodup)
    (h : (vectorizeKeywords lookup vs os).result? = some ws) :
    (vectorizeKeywords lookup ws os).result? = some ws := by
  rw [result?_vectorizeKeywords lookup hos hvs] at h
  have hnames := names_of_mapM (fun _ _ ↦ Variable.name_of_vectorizeBy?) h
  rw [result?_vectorizeKeywords lookup hos (by rwa [hnames])]
  refine mapM_of_mapM h fun v _ w hvw ↦ ?_
  rw [Variable.name_of_vectorizeBy? hvw]
  exact Variable.vectorizeBy?_of_vectorizeBy? hvw

theorem vectorize_of_vectorize {lookup : Lookup} {o : Vectorization} {c c' : Call}
    (hnames : (c.kwargs.map (·.name)).Nodup) (h : (c.vectorize lookup o).result? = some c') :
    (c'.vectorize lookup o).result? = some c' := by
  have haltered := altered_vectorize lookup c o
  rw [Progress.state_of_result? h] at haltered
  have hkeywords : c'.kwargs.map (·.name) = c.kwargs.map (·.name) :=
    (map_eq_of_forall₂ (haltered.kwargs.imp fun _ _ hvw ↦ hvw.1.symm)).symm
  have hmatches : o.Matches c' ↔ o.Matches c :=
    matches_congr haltered.forall₂_args.length_eq.symm hkeywords
  rw [vectorize] at h ⊢
  cases hcheck : c.checkOverrides o with
  | error e =>
    rw [hcheck] at h
    cases h
  | ok u =>
    have hm := checkOverrides_eq_ok_iff.mp hcheck
    rw [hcheck] at h
    rw [checkOverrides_eq_ok_iff.mpr (hmatches.mpr hm)]
    simp only [Progress.result?_andThen, Progress.result?_map] at h ⊢
    obtain ⟨args, hargs, h⟩ := Option.bind_eq_some_iff.mp h
    obtain ⟨kwargs, hkwargs, rfl⟩ := Option.map_eq_some_iff.mp h
    rw [vectorizePositional_of_vectorizePositional hargs, Option.bind_some,
      vectorizeKeywords_of_vectorizeKeywords hm.2.2.2 hnames hkwargs]
    rfl

/-! ### Resolving, aligning and differentiating -/

theorem mapM?_walk?_of_mapM?_walk? {l : Node → Option Node}
    {d : List Variable → Node → Option Node} {c c' : Call}
    (hl : ∀ n m, l n = some m → l m = some m) (hd : ∀ fs n m, d fs n = some m → d fs m = some m)
    (h : c.mapM? (Variable.walk? l d) = some c') : c'.mapM? (Variable.walk? l d) = some c' := by
  obtain ⟨hargs, hkwargs, -⟩ := withVariables?_eq_some_iff.mp h
  refine withVariables?_eq_some_iff.mpr ⟨?_, ?_, rfl⟩
  · exact mapM_of_mapM hargs fun _ _ _ ↦ Variable.walk?_of_walk? hl hd
  · exact mapM_of_mapM hkwargs fun _ _ _ ↦ Variable.walk?_of_walk? hl hd

theorem resolve_of_resolve {c c' : Call} (h : c.resolve.result? = some c') :
    c'.resolve.result? = some c' := by
  rw [result?_resolve] at h ⊢
  refine mapM?_walk?_of_mapM?_walk? (fun n m ↦ Node.resolve_of_resolve) (fun fs n m hnm ↦ ?_) h
  rw [toOption_eq_some_iff] at hnm ⊢
  exact Node.resolveContainer_of_resolveContainer hnm

theorem align_of_align {dispatch : Dispatch} {c c' : Call}
    (h : (c.align dispatch).result? = some c') : (c'.align dispatch).result? = some c' := by
  rw [result?_align] at h ⊢
  refine mapM?_walk?_of_mapM?_walk? (fun n m hnm ↦ ?_) (fun _ _ _ _ ↦ rfl) h
  rw [toOption_eq_some_iff] at hnm ⊢
  exact Node.align_of_align hnm

theorem differentiate_of_differentiate {mode : CallMode} {c c' : Call}
    (h : (c.differentiate mode).result? = some c') :
    (c'.differentiate mode).result? = some c' := by
  have hnode : ∀ n m : Node, (n.differentiate mode).toOption = some m →
      (m.differentiate mode).toOption = some m := fun n m hnm ↦ by
    rw [toOption_eq_some_iff] at hnm ⊢
    exact Node.differentiate_of_differentiate hnm
  rw [result?_differentiate] at h ⊢
  exact mapM?_walk?_of_mapM?_walk? hnode (fun _ ↦ hnode) h

/-! ### Runs -/

/-- **Every pass is idempotent.** In every state that a run over a call of some arguments comes to,
whichever passes it has taken and whether they have gone through or not, a pass that goes through
leaves a state that the same pass leaves as it is, and goes through there. -/
theorem run_of_run {registry : MarshallRegistry} {a : Arguments} {start : Call}
    (h : ofArguments registry a = .ok start) (ps : List Pass) (p : Pass) {c : Call}
    (hrun : p.run (start.after ps) = .done c) : p.run c = .done c := by
  rw [Progress.eq_done_iff] at hrun ⊢
  have hnames := ((reached_start h).after ps).distinct.keywords
  cases p with
  | bind f => exact bind_of_bind hrun
  | vectorize lookup o => exact vectorize_of_vectorize hnames hrun
  | resolve => exact resolve_of_resolve hrun
  | align dispatch => exact align_of_align hrun
  | differentiate mode => exact differentiate_of_differentiate hrun

/-- A run that resolves too early, and in which more axes than the value has are refused. -/
def stumble : List Pass :=
  [.resolve, .bind scale, .vectorize ⟨.standard, .builtin⟩ { args := [.pin (.axes [0, 1, 2])] },
    .resolve]

/-- Gives the axes of a grid in reverse. -/
def transpose : Pass := .vectorize ⟨.standard, .builtin⟩ { args := [.pin (.axes [1, 0])] }

theorem run_of_run_grid : ∃ start, ofArguments .builtin grid = .ok start ∧
    ∃ c, transpose.run (start.after stumble) = .done c ∧ transpose.run c = .done c :=
  ⟨_, rfl, _, rfl, @run_of_run .builtin grid _ rfl stumble transpose _ rfl⟩

end Call

end KernelCall
