import KernelCall.Proofs.Progress
import KernelCall.Proofs.Variable.Walk
import KernelCall.Variable.OfValue

/-!
# Calls of arguments

What is known of a call before it is bound. Every variable is that of a value: its nodes are fresh,
its leaves carry values that have no entries, and no dictionary has two fields of one name. All of
it follows from one induction over host values, `Variable.forall_of_ofValue`.
-/

namespace KernelCall

/-! ## Host values -/

namespace HostValue

mutual

private theorem induct {motive : HostValue → Prop} (plain : ∀ h, h.kind ≠ .dict → motive h)
    (dict : ∀ entries, (∀ e ∈ entries, motive e.2) → motive (.dict entries)) : ∀ h, motive h
  | .dict entries => dict entries (inductEntries plain dict entries)
  | .int _ | .float _ | .bool _ | .vector .. | .valueRef _ | .diffPair .. | .buffer _
  | .diffBuffer .. | .texture _ => plain _ (by simp [kind])

private theorem inductEntries {motive : HostValue → Prop} (plain : ∀ h, h.kind ≠ .dict → motive h)
    (dict : ∀ entries, (∀ e ∈ entries, motive e.2) → motive (.dict entries)) :
    ∀ entries : List (String × HostValue), ∀ e ∈ entries, motive e.2
  | [] => by simp
  | (_, h) :: entries =>
    List.forall_mem_cons.mpr ⟨induct plain dict h, inductEntries plain dict entries⟩

end

/-- Induction over a host value: only a dictionary has values inside. -/
@[elab_as_elim]
theorem entrywise {motive : HostValue → Prop} (plain : ∀ h, h.kind ≠ .dict → motive h)
    (dict : ∀ entries, (∀ e ∈ entries, motive e.2) → motive (.dict entries)) (h : HostValue) :
    motive h :=
  induct plain dict h

end HostValue

/-! ## Variables of values -/

namespace Node

/-- The node carries some value, and nothing else is known of it but a name and a path. -/
def Fresh (registry : MarshallRegistry) (n : Node) : Prop :=
  ∃ name path marshall h, registry.forValue h = .ok marshall ∧ n = { name, path, marshall }

/-- Nothing has been decided of the node that overriding or resolving decides. -/
def Undecided (n : Node) : Prop :=
  n.mapping = .unresolved ∧ n.vectorType? = none ∧ n.pin? = none

theorem Fresh.undecided {registry : MarshallRegistry} {n : Node} (h : n.Fresh registry) :
    n.Undecided := by
  obtain ⟨name, path, m, v, -, rfl⟩ := h
  exact ⟨rfl, rfl, rfl⟩

theorem fresh_of_carry {registry : MarshallRegistry} {path : String} {h : HostValue}
    {marshall : Marshall} (hm : registry.carry path h = .ok marshall) (name : String) :
    Fresh registry { name, path, marshall } := by
  rw [MarshallRegistry.carry] at hm
  split at hm
  · next hvalue =>
    cases hm
    exact ⟨name, path, marshall, h, hvalue, rfl⟩
  · cases hm

/-- The node carries a value that has no entries of its own. -/
def Plain (registry : MarshallRegistry) (n : Node) : Prop :=
  ∃ h : HostValue, h.kind ≠ .dict ∧ registry.forValue h = .ok n.marshall

theorem plain_of_carry {registry : MarshallRegistry} {path name : String} {h : HostValue}
    {marshall : Marshall} (hkind : h.kind ≠ .dict) (hm : registry.carry path h = .ok marshall) :
    Plain registry { name, path, marshall } := by
  rw [MarshallRegistry.carry] at hm
  split at hm
  · next hvalue =>
    cases hm
    exact ⟨h, hkind, hvalue⟩
  · cases hm

end Node

namespace Variable

/-- The variable of a value that is not a dictionary is a leaf. -/
theorem ofValue_of_not_dict (registry : MarshallRegistry) (path name : String) {h : HostValue}
    (hdict : h.kind ≠ .dict) : ofValue registry path name h =
      registry.carry path h >>= fun marshall ↦ .ok (.leaf { name, path, marshall }) := by
  cases h with
  | dict entries => exact absurd rfl hdict
  | _ =>
    rw [ofValue]
    · rfl
    · rintro _ ⟨⟩

theorem ofValue_eq_leaf {registry : MarshallRegistry} {path name : String} {h : HostValue}
    (hdict : h.kind ≠ .dict) {v : Variable} (hv : ofValue registry path name h = .ok v) :
    ∃ m, registry.carry path h = .ok m ∧ v = leaf { name, path, marshall := m } := by
  rw [ofValue_of_not_dict registry path name hdict] at hv
  obtain ⟨m, hm, hv⟩ := bind_eq_ok_iff.mp hv
  cases hv
  exact ⟨m, hm, rfl⟩

theorem ofValue_eq_dict {registry : MarshallRegistry} {path name : String}
    {entries : List (String × HostValue)} {v : Variable}
    (hv : ofValue registry path name (.dict entries) = .ok v) :
    ∃ m fs, registry.carry path (.dict entries) = .ok m ∧
      ofEntries registry path [] entries = .ok fs ∧ v = dict { name, path, marshall := m } fs := by
  rw [ofValue] at hv
  obtain ⟨m, hm, hv⟩ := bind_eq_ok_iff.mp hv
  obtain ⟨fs, hfs, hv⟩ := bind_eq_ok_iff.mp hv
  cases hv
  exact ⟨m, fs, hm, hfs, rfl⟩

theorem name_of_ofValue {registry : MarshallRegistry} {path name : String} {h : HostValue}
    {v : Variable} (hv : ofValue registry path name h = .ok v) : v.name = name := by
  by_cases hdict : h.kind = .dict
  · cases h with
    | dict entries =>
      obtain ⟨m, fs, -, -, rfl⟩ := ofValue_eq_dict hv
      rfl
    | _ => cases hdict
  · obtain ⟨m, -, rfl⟩ := ofValue_eq_leaf hdict hv
    rfl

theorem forall_unseen_cons_iff {α : Type} {name : α → String} {a : String} {xs : List α}
    {seen : List String} : (∀ x ∈ xs, name x ∉ a :: seen) ↔
      a ∉ xs.map name ∧ ∀ x ∈ xs, name x ∉ seen := by
  simp only [List.mem_cons, not_or, forall_and, List.mem_map, not_exists, not_and]

/-- Names that are refused once they have been seen do not repeat. -/
theorem nodup_of_unseen {v : Variable} {vs : List Variable} {seen : List String}
    (hv : v.name ∉ seen) (hnodup : (vs.map (·.name)).Nodup)
    (hseen : ∀ w ∈ vs, w.name ∉ v.name :: seen) :
    ((v :: vs).map (·.name)).Nodup ∧ ∀ w ∈ v :: vs, w.name ∉ seen := by
  obtain ⟨hname, hseen⟩ := forall_unseen_cons_iff.mp hseen
  rw [List.map_cons, List.nodup_cons, List.forall_mem_cons]
  exact ⟨⟨hname, hnodup⟩, hv, hseen⟩

/-- The variables of entries: one for each entry, in order, and no name twice. -/
theorem ofEntries_eq_ok {registry : MarshallRegistry} {path : String} {seen : List String}
    {entries : List (String × HostValue)} {vs : List Variable}
    (hvs : ofEntries registry path seen entries = .ok vs) :
    List.Forall₂ (fun e v ↦ ofValue registry (subpath path e.1) e.1 e.2 = .ok v) entries vs ∧
      (vs.map (·.name)).Nodup ∧ ∀ v ∈ vs, v.name ∉ seen := by
  induction entries generalizing seen vs with
  | nil =>
    cases hvs
    exact ⟨.nil, List.nodup_nil, by simp⟩
  | cons e entries ih =>
    obtain ⟨key, h⟩ := e
    rw [ofEntries] at hvs
    by_cases hkey : key ∈ seen
    · rw [if_pos (by simpa using hkey)] at hvs
      cases hvs
    rw [if_neg (by simpa using hkey)] at hvs
    obtain ⟨v, hv, hvs⟩ := bind_eq_ok_iff.mp hvs
    obtain ⟨ws, hws, hvs⟩ := bind_eq_ok_iff.mp hvs
    cases hvs
    obtain ⟨hmembers, hnodup, hseen⟩ := ih hws
    have hname : v.name = key := name_of_ofValue hv
    rw [← hname] at hkey hseen
    exact ⟨.cons hv hmembers, nodup_of_unseen hkey hnodup hseen⟩

/-- What holds of the variable of every value that has no entries, and of a dictionary once it holds
of its fields, holds of the variable of any value. -/
theorem forall_of_ofValue {registry : MarshallRegistry} {motive : Variable → Prop}
    (hleaf : ∀ n : Node, n.Fresh registry → n.Plain registry → motive (leaf n))
    (hdict : ∀ (n : Node) (fs : List Variable), n.Fresh registry → (fs.map (·.name)).Nodup →
      (∀ f ∈ fs, motive f) → motive (dict n fs))
    {path name : String} {h : HostValue} {v : Variable} (hv : ofValue registry path name h = .ok v) :
    motive v := by
  induction h using HostValue.entrywise generalizing path name v with
  | plain h hkind =>
    obtain ⟨m, hm, rfl⟩ := ofValue_eq_leaf hkind hv
    exact hleaf _ (Node.fresh_of_carry hm name) (Node.plain_of_carry hkind hm)
  | dict entries ih =>
    obtain ⟨m, fs, hm, hfs, rfl⟩ := ofValue_eq_dict hv
    obtain ⟨hmembers, hnodup, -⟩ := ofEntries_eq_ok hfs
    refine hdict _ fs (Node.fresh_of_carry hm name) hnodup fun f hf ↦ ?_
    obtain ⟨e, he, hef⟩ := exists_of_forall₂_right hmembers hf
    exact ih e he hef

theorem fresh_of_ofValue {registry : MarshallRegistry} {path name : String} {h : HostValue}
    {v : Variable} (hv : ofValue registry path name h = .ok v) : ∀ n ∈ v.nodes, n.Fresh registry := by
  refine forall_of_ofValue (motive := fun v ↦ ∀ n ∈ v.nodes, n.Fresh registry)
    (fun n hn _ ↦ ?_) (fun n fs hn _ ih ↦ ?_) hv
  · rw [nodes_leaf, List.forall_mem_singleton]
    exact hn
  · rw [nodes_dict, List.forall_mem_cons]
    refine ⟨hn, fun m hm ↦ ?_⟩
    obtain ⟨f, hf, hmf⟩ := List.mem_flatMap.mp hm
    exact ih f hf m hmf

theorem plain_of_ofValue {registry : MarshallRegistry} {path name : String} {h : HostValue}
    {v : Variable} (hv : ofValue registry path name h = .ok v) : ∀ n ∈ v.leaves, n.Plain registry := by
  refine forall_of_ofValue (motive := fun v ↦ ∀ n ∈ v.leaves, n.Plain registry)
    (fun n _ hn ↦ ?_) (fun n fs _ _ ih ↦ ?_) hv
  · rw [leaves_leaf, List.forall_mem_singleton]
    exact hn
  · intro m hm
    rw [leaves_dict] at hm
    obtain ⟨f, hf, hmf⟩ := List.mem_flatMap.mp hm
    exact ih f hf m hmf

/-- No dictionary has two fields of one name. -/
theorem nodup_of_ofValue {registry : MarshallRegistry} {path name : String} {h : HostValue}
    {v : Variable} (hv : ofValue registry path name h = .ok v) {n : Node} {fs : List Variable}
    (hn : dict n fs ∈ v.parts) : (fs.map (·.name)).Nodup := by
  revert hn
  refine forall_of_ofValue (motive := fun v ↦ dict n fs ∈ v.parts → (fs.map (·.name)).Nodup)
    (fun m _ _ hn ↦ ?_) (fun m gs _ hnodup ih hn ↦ ?_) hv
  · cases mem_parts_leaf.mp hn
  · rcases mem_parts_dict.mp hn with hn | ⟨g, hg, hn⟩
    · cases hn
      exact hnodup
    · exact ih g hg hn

end Variable

namespace Call

/-- The variables of keywords: one for each, in order, and no name twice. -/
theorem ofKeywords_eq_ok {registry : MarshallRegistry} {seen : List String}
    {kwargs : List (String × HostValue)} {vs : List Variable}
    (hvs : ofKeywords registry seen kwargs = .ok vs) :
    List.Forall₂ (fun e v ↦ Variable.ofValue registry e.1 e.1 e.2 = .ok v) kwargs vs ∧
      (vs.map (·.name)).Nodup ∧ ∀ v ∈ vs, v.name ∉ seen := by
  induction kwargs generalizing seen vs with
  | nil =>
    cases hvs
    exact ⟨.nil, List.nodup_nil, by simp⟩
  | cons e kwargs ih =>
    obtain ⟨name, h⟩ := e
    rw [ofKeywords] at hvs
    by_cases hname : name ∈ seen
    · rw [if_pos (by simpa using hname)] at hvs
      cases hvs
    rw [if_neg (by simpa using hname)] at hvs
    obtain ⟨v, hv, hvs⟩ := bind_eq_ok_iff.mp hvs
    obtain ⟨ws, hws, hvs⟩ := bind_eq_ok_iff.mp hvs
    cases hvs
    obtain ⟨hmembers, hnodup, hseen⟩ := ih hws
    have hkey : v.name = name := Variable.name_of_ofValue hv
    rw [← hkey] at hname hseen
    exact ⟨.cons hv hmembers, Variable.nodup_of_unseen hname hnodup hseen⟩

/-- What a call is made of: a variable for each argument, in order. -/
theorem ofArguments_eq_ok {registry : MarshallRegistry} {a : Arguments} {c : Call}
    (h : ofArguments registry a = .ok c) :
    a.args.mapM (fun v ↦ (Variable.ofValue registry "" "" v).toOption) = some c.args ∧
      ofKeywords registry [] a.kwargs = .ok c.kwargs := by
  rw [ofArguments] at h
  obtain ⟨args, hargs, h⟩ := bind_eq_ok_iff.mp h
  obtain ⟨kwargs, hkwargs, h⟩ := bind_eq_ok_iff.mp h
  cases h
  exact ⟨by rw [← toOption_mapM, hargs]; rfl, hkwargs⟩

/-- Every variable of a call is that of a value. -/
theorem exists_value_of_mem_roots {registry : MarshallRegistry} {a : Arguments} {c : Call}
    (h : ofArguments registry a = .ok c) {v : Variable} (hv : v ∈ c.roots) :
    ∃ path name value, Variable.ofValue registry path name value = .ok v := by
  obtain ⟨hargs, hkwargs⟩ := ofArguments_eq_ok h
  rcases List.mem_append.mp hv with hv | hv
  · obtain ⟨value, -, hvalue⟩ := exists_of_mem_mapM hargs hv
    exact ⟨"", "", value, toOption_eq_some_iff.mp hvalue⟩
  · obtain ⟨e, -, he⟩ := exists_of_forall₂_right (ofKeywords_eq_ok hkwargs).1 hv
    exact ⟨e.1, e.1, e.2, he⟩

/-- The nodes of a call carry its arguments, and are otherwise fresh. -/
theorem fresh_of_ofArguments {registry : MarshallRegistry} {a : Arguments} {c : Call}
    (h : ofArguments registry a = .ok c) : ∀ v ∈ c.roots, ∀ n ∈ v.nodes, n.Fresh registry := by
  intro v hv
  obtain ⟨path, name, value, hvalue⟩ := exists_value_of_mem_roots h hv
  exact Variable.fresh_of_ofValue hvalue

/-- The leaves of a call carry values that have no entries. -/
theorem plain_of_ofArguments {registry : MarshallRegistry} {a : Arguments} {c : Call}
    (h : ofArguments registry a = .ok c) : ∀ n ∈ c.leaves, n.Plain registry := by
  intro n hn
  obtain ⟨v, hv, hnv⟩ := List.mem_flatMap.mp hn
  obtain ⟨path, name, value, hvalue⟩ := exists_value_of_mem_roots h hv
  exact Variable.plain_of_ofValue hvalue n hnv

theorem name_of_mem_args {registry : MarshallRegistry} {a : Arguments} {c : Call}
    (h : ofArguments registry a = .ok c) : ∀ v ∈ c.args, v.name = "" := by
  intro v hv
  obtain ⟨value, -, hvalue⟩ := exists_of_mem_mapM (ofArguments_eq_ok h).1 hv
  exact Variable.name_of_ofValue (toOption_eq_some_iff.mp hvalue)

theorem nodup_keywords {registry : MarshallRegistry} {a : Arguments} {c : Call}
    (h : ofArguments registry a = .ok c) : (c.kwargs.map (·.name)).Nodup :=
  (ofKeywords_eq_ok (ofArguments_eq_ok h).2).2.1

end Call

end KernelCall
