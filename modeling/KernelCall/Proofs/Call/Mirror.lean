import KernelCall.Proofs.Call.Arguments
import KernelCall.Proofs.Failure

/-!
# Trees of arguments

The variables of a call are made in one go from left to right: a value's own marshall is looked up
before its entries are treated, and a name that repeats is found before the value that it stands
for. Each of these steps looks at one place of the arguments (`Site`) and goes wrong, or not, by
itself. So the first place in this order at which something is wrong decides on the error, and
where nothing is wrong the variables mirror the values.

What a reference or a pair of numbers consists of is no value of the call: only the entries of a
dictionary are.
-/

namespace KernelCall

/-! ## Values and places -/

/-- A place in the arguments of a call at which something can be wrong. -/
inductive Site where
  /-- A value, which has to be carried. -/
  | value (path : String) (x : HostValue)
  /-- The key of an entry of the dictionary at `path`, `earlier` being the keys in front of it. -/
  | entry (path key : String) (earlier : List String)
  /-- A keyword, `earlier` being the keywords in front of it. -/
  | keyword (name : String) (earlier : List String)

namespace Site

/-- What is wrong at a place: the registry has no marshall for a value, or a name has been used. -/
def fault? (registry : MarshallRegistry) : Site → Option BindError
  | value path x =>
    match registry.forValue x with
    | .ok _ => none
    | .error e => some { kind := .marshall, path, message := e.message }
  | entry path key earlier =>
    if key ∈ earlier then
      some {
        kind := .bindingLookup
        path
        message := "field '" ++ key ++ "' appears more than once" }
    else none
  | keyword name earlier =>
    if name ∈ earlier then
      some {
        kind := .bindingLookup
        path := name
        message := "keyword argument '" ++ name ++ "' supplied twice" }
    else none

/-- The places of named values in order, each name in front of the places of its value. -/
def named (name : String → List String → Site) (seen : List String) :
    List (String × List Site) → List Site
  | [] => []
  | (key, own) :: es => name key seen :: own ++ named name (key :: seen) es

end Site

namespace HostValue

mutual

/-- The places of a value in order. -/
def sites (path : String) : HostValue → List Site
  | .dict entries =>
    .value path (.dict entries) :: Site.named (.entry path) [] (entrySites path entries)
  | x => [.value path x]

/-- The keys of a dictionary, each with the places of its value. -/
def entrySites (path : String) : List (String × HostValue) → List (String × List Site)
  | [] => []
  | (key, x) :: entries => (key, sites (subpath path key) x) :: entrySites path entries

end

mutual

/-- A value with the values inside: those of its entries, if it is a dictionary. -/
def values : HostValue → List HostValue
  | .dict entries => .dict entries :: entryValues entries
  | x => [x]

def entryValues : List (String × HostValue) → List HostValue
  | [] => []
  | (_, x) :: entries => values x ++ entryValues entries

end

theorem entrySites_eq_map (path : String) (entries : List (String × HostValue)) :
    entrySites path entries = entries.map fun e ↦ (e.1, e.2.sites (subpath path e.1)) := by
  induction entries with
  | nil => rfl
  | cons e entries ih => rw [entrySites, ih, List.map_cons]

theorem entryValues_eq_flatMap (entries : List (String × HostValue)) :
    entryValues entries = entries.flatMap fun e ↦ e.2.values := by
  induction entries with
  | nil => rfl
  | cons e entries ih => rw [entryValues, ih, List.flatMap_cons]

theorem sites_of_not_dict {x : HostValue} (hx : x.kind ≠ .dict) (path : String) :
    x.sites path = [.value path x] := by
  cases x with
  | dict entries => exact absurd rfl hx
  | _ => rfl

theorem values_of_not_dict {x : HostValue} (hx : x.kind ≠ .dict) : x.values = [x] := by
  cases x with
  | dict entries => exact absurd rfl hx
  | _ => rfl

end HostValue

namespace Arguments

/-- The places of the arguments of a call, positional ones first. -/
def sites (a : Arguments) : List Site :=
  a.args.flatMap (·.sites "") ++ Site.named .keyword [] (a.kwargs.map fun e ↦ (e.1, e.2.sites e.1))

/-- All values of a call. -/
def values (a : Arguments) : List HostValue :=
  a.args.flatMap (·.values) ++ a.kwargs.flatMap fun e ↦ e.2.values

end Arguments

/-! ## The first error -/

theorem Fault.blame_repeatedField (path key : String) : (Fault.repeatedField key).blame path =
    { kind := .bindingLookup, path,
      message := "field '" ++ key ++ "' appears more than once" } := by
  have hmessage : "field " ++ ("'" ++ key ++ "'") ++ " appears more than once" =
      "field '" ++ key ++ "' appears more than once" := by
    simp [← String.toList_inj]
  rw [← hmessage]
  rfl

theorem Fault.blame_repeatedKeyword (name : String) : (Fault.repeatedKeyword name).blame name =
    { kind := .bindingLookup, path := name,
      message := "keyword argument '" ++ name ++ "' supplied twice" } := by
  have hmessage : "keyword argument " ++ ("'" ++ name ++ "'") ++ " supplied twice" =
      "keyword argument '" ++ name ++ "' supplied twice" := by
    simp [← String.toList_inj]
  rw [← hmessage]
  rfl

namespace Variable

variable {registry : MarshallRegistry}

theorem failure?_carry (path : String) (x : HostValue) :
    failure? (registry.carry path x) = (Site.value path x).fault? registry := by
  rw [MarshallRegistry.carry, Site.fault?]
  cases registry.forValue x <;> rfl

/-- The entries of a dictionary fail where their places do, if each of the values does. -/
theorem failure?_ofEntries {path : String} {seen : List String}
    {entries : List (String × HostValue)}
    (h : ∀ e ∈ entries, failure? (ofValue registry (subpath path e.1) e.1 e.2) =
      (e.2.sites (subpath path e.1)).findSome? (·.fault? registry)) :
    failure? (ofEntries registry path seen entries) = (Site.named (.entry path) seen
      (HostValue.entrySites path entries)).findSome? (·.fault? registry) := by
  induction entries generalizing seen with
  | nil => rfl
  | cons e entries ih =>
    obtain ⟨key, x⟩ := e
    rw [List.forall_mem_cons] at h
    rw [ofEntries, HostValue.entrySites, Site.named, List.cons_append, List.findSome?_cons,
      List.findSome?_append, ← h.1, ← ih h.2, Site.fault?]
    by_cases hkey : key ∈ seen
    · rw [if_pos hkey, if_pos (by simpa using hkey), failure?, ← Fault.blame_repeatedField]
    · rw [if_neg hkey, if_neg (by simpa using hkey), failure?_map₂]

/-- **A value fails at the first of its places at which something is wrong.** -/
theorem failure?_ofValue (path name : String) (x : HostValue) :
    failure? (ofValue registry path name x) = (x.sites path).findSome? (·.fault? registry) := by
  induction x using HostValue.entrywise generalizing path name with
  | plain x hx =>
    rw [ofValue_of_not_dict registry path name hx, x.sites_of_not_dict hx, List.findSome?_singleton,
      ← failure?_carry]
    exact failure?_map _ _
  | dict entries ih =>
    rw [ofValue, HostValue.sites, List.findSome?_cons, ← failure?_carry, failure?_map₂,
      failure?_ofEntries fun e he ↦ ih e he _ _]
    cases failure? (registry.carry path (.dict entries)) <;> rfl

end Variable

namespace Call

variable {registry : MarshallRegistry}

theorem failure?_ofKeywords {seen : List String} (kwargs : List (String × HostValue)) :
    failure? (ofKeywords registry seen kwargs) = (Site.named .keyword seen
      (kwargs.map fun e ↦ (e.1, e.2.sites e.1))).findSome? (·.fault? registry) := by
  induction kwargs generalizing seen with
  | nil => rfl
  | cons e kwargs ih =>
    obtain ⟨name, x⟩ := e
    rw [ofKeywords, List.map_cons, Site.named, List.cons_append, List.findSome?_cons,
      List.findSome?_append, ← Variable.failure?_ofValue name name, ← ih, Site.fault?]
    by_cases hname : name ∈ seen
    · rw [if_pos hname, if_pos (by simpa using hname), failure?, ← Fault.blame_repeatedKeyword]
    · rw [if_neg hname, if_neg (by simpa using hname), failure?_map₂]

/-- **A call fails at the first place of its arguments at which something is wrong.** -/
theorem failure?_ofArguments (a : Arguments) :
    failure? (ofArguments registry a) = a.sites.findSome? (·.fault? registry) := by
  have hargs : a.args.findSome? (fun x ↦ failure? (Variable.ofValue registry "" "" x)) =
      (a.args.flatMap (·.sites "")).findSome? (·.fault? registry) :=
    findSome?_flatMap_eq fun x _ ↦ Variable.failure?_ofValue "" "" x
  rw [ofArguments, failure?_map₂, failure?_mapM, hargs, failure?_ofKeywords, Arguments.sites,
    List.findSome?_append]

end Call

/-! ## Where nothing is wrong -/

section Faultless

variable {registry : MarshallRegistry}

theorem Site.fault?_value_eq_none_iff {path : String} {x : HostValue} :
    (Site.value path x).fault? registry = none ↔ ∃ m, registry.forValue x = .ok m := by
  rw [fault?]
  cases registry.forValue x <;> simp

theorem Site.faultless_named_iff {name : String → List String → Site}
    {own : String × HostValue → List Site}
    (hname : ∀ key seen, (name key seen).fault? registry = none ↔ key ∉ seen)
    (es : List (String × HostValue)) (seen : List String) :
    (∀ s ∈ named name seen (es.map fun e ↦ (e.1, own e)), s.fault? registry = none) ↔
      ((es.map (·.1)).Nodup ∧ ∀ e ∈ es, e.1 ∉ seen) ∧
        ∀ e ∈ es, ∀ s ∈ own e, s.fault? registry = none := by
  induction es generalizing seen with
  | nil => simp [named]
  | cons e es ih =>
    rw [List.map_cons, named, List.cons_append, List.forall_mem_cons, List.forall_mem_append, hname,
      ih, Variable.forall_unseen_cons_iff, List.map_cons, List.nodup_cons, List.forall_mem_cons,
      List.forall_mem_cons]
    tauto

theorem Site.faultless_named_nil_iff {name : String → List String → Site}
    {own : String × HostValue → List Site}
    (hname : ∀ key seen, (name key seen).fault? registry = none ↔ key ∉ seen)
    {es : List (String × HostValue)} :
    (∀ s ∈ named name [] (es.map fun e ↦ (e.1, own e)), s.fault? registry = none) ↔
      (es.map (·.1)).Nodup ∧ ∀ e ∈ es, ∀ s ∈ own e, s.fault? registry = none := by
  rw [faultless_named_iff hname]
  exact and_congr_left fun _ ↦ and_iff_left fun _ _ ↦ List.not_mem_nil

/-- The registry has a marshall for the value, and if it is a dictionary no key repeats. -/
def HostValue.Sound (registry : MarshallRegistry) (x : HostValue) : Prop :=
  (∃ m, registry.forValue x = .ok m) ∧ ∀ entries, x = .dict entries → (entries.map (·.1)).Nodup

theorem HostValue.faultless_sites_iff (path : String) (x : HostValue) :
    (∀ s ∈ x.sites path, s.fault? registry = none) ↔ ∀ y ∈ x.values, y.Sound registry := by
  induction x using HostValue.entrywise generalizing path with
  | plain x hx =>
    rw [sites_of_not_dict hx, values_of_not_dict hx, List.forall_mem_singleton,
      List.forall_mem_singleton, Site.fault?_value_eq_none_iff]
    refine (and_iff_left fun entries hdict ↦ ?_).symm
    rw [hdict] at hx
    exact absurd rfl hx
  | dict entries ih =>
    have hkey : ∀ key seen, (Site.entry path key seen).fault? registry = none ↔ key ∉ seen := by
      intro key seen
      by_cases h : key ∈ seen <;> simp [Site.fault?, h]
    have hself : (HostValue.dict entries).Sound registry ↔
        (∃ m, registry.forValue (.dict entries) = .ok m) ∧ (entries.map (·.1)).Nodup := by
      simp [Sound]
    rw [sites, values, List.forall_mem_cons, List.forall_mem_cons, Site.fault?_value_eq_none_iff,
      entrySites_eq_map, Site.faultless_named_nil_iff hkey, ← and_assoc, ← hself,
      entryValues_eq_flatMap, List.forall_mem_flatMap]
    exact and_congr_right fun _ ↦ forall₂_congr fun e he ↦ ih e he (subpath path e.1)

theorem Arguments.faultless_sites_iff (a : Arguments) :
    (∀ s ∈ a.sites, s.fault? registry = none) ↔
      (a.kwargs.map (·.1)).Nodup ∧ ∀ x ∈ a.values, x.Sound registry := by
  have hkeyword : ∀ name seen, (Site.keyword name seen).fault? registry = none ↔ name ∉ seen := by
    intro name seen
    by_cases h : name ∈ seen <;> simp [Site.fault?, h]
  rw [sites, values, List.forall_mem_append, List.forall_mem_append, List.forall_mem_flatMap,
    List.forall_mem_flatMap, List.forall_mem_flatMap, Site.faultless_named_nil_iff hkeyword]
  simp only [HostValue.faultless_sites_iff]
  exact and_left_comm

end Faultless

/-! ## Mirrored values -/

mutual

/-- The variable mirrors a value under a given path and name: it has fields if and only if the
value is a dictionary, and then one for each entry in order. Each node carries its value by the
registry's marshall for it. -/
inductive Mirrors (registry : MarshallRegistry) :
    (path name : String) → HostValue → Variable → Prop where
  | leaf {path name : String} {x : HostValue} {n : Node} (plain : x.kind ≠ .dict)
    (named : n.name = name) (placed : n.path = path)
    (carried : registry.forValue x = .ok n.marshall) : Mirrors registry path name x (.leaf n)
  | dict {path name : String} {entries : List (String × HostValue)} {n : Node} {fs : List Variable}
    (named : n.name = name) (placed : n.path = path)
    (carried : registry.forValue (.dict entries) = .ok n.marshall)
    (fields : MirrorsEntries registry path entries fs) :
    Mirrors registry path name (.dict entries) (.dict n fs)

/-- The fields mirror the entries of the dictionary at a given path one by one. Each has the
entry's key for its name, and the path that this adds to the dictionary's. -/
inductive MirrorsEntries (registry : MarshallRegistry) :
    (path : String) → List (String × HostValue) → List Variable → Prop where
  | nil {path : String} : MirrorsEntries registry path [] []
  | cons {path key : String} {x : HostValue} {entries : List (String × HostValue)} {f : Variable}
    {fs : List Variable} (head : Mirrors registry (subpath path key) key x f)
    (tail : MirrorsEntries registry path entries fs) :
    MirrorsEntries registry path ((key, x) :: entries) (f :: fs)

end

theorem MirrorsEntries.of_forall₂ {registry : MarshallRegistry} {path : String}
    {entries : List (String × HostValue)} {fs : List Variable}
    (h : List.Forall₂ (fun e f ↦ Mirrors registry (subpath path e.1) e.1 e.2 f) entries fs) :
    MirrorsEntries registry path entries fs := by
  induction h with
  | nil => exact .nil
  | cons head _ ih => exact .cons head ih

theorem MarshallRegistry.forValue_of_carry {registry : MarshallRegistry} {path : String}
    {x : HostValue} {m : Marshall} (h : registry.carry path x = .ok m) :
    registry.forValue x = .ok m := by
  rw [carry] at h
  split at h
  · next hm =>
    cases h
    exact hm
  · cases h

theorem Variable.mirrors_of_ofValue {registry : MarshallRegistry} {path name : String}
    {x : HostValue} {v : Variable} (hv : ofValue registry path name x = .ok v) :
    Mirrors registry path name x v := by
  induction x using HostValue.entrywise generalizing path name v with
  | plain x hx =>
    obtain ⟨m, hm, rfl⟩ := ofValue_eq_leaf hx hv
    exact .leaf hx rfl rfl (MarshallRegistry.forValue_of_carry hm)
  | dict entries ih =>
    obtain ⟨m, fs, hm, hfs, rfl⟩ := ofValue_eq_dict hv
    refine .dict rfl rfl (MarshallRegistry.forValue_of_carry hm) (.of_forall₂ ?_)
    exact forall₂_of_mem (ofEntries_eq_ok hfs).1 fun e he f _ hf ↦ ih e he hf

namespace Call

/-- **The tree of a call mirrors its arguments.** Whatever the registry, a call can be made of
arguments if and only if no keyword repeats, no dictionary among the values, at whatever depth,
has a key twice, and the registry has a marshall for each of the values, dictionaries and their
entries included. The variables that are made then mirror the values. Otherwise the error is that
of the first place at which something is wrong, a dictionary coming before its entries and a name
before its value. -/
theorem ofArguments_mirrors (registry : MarshallRegistry) (a : Arguments) :
    ((∃ c, ofArguments registry a = .ok c) ↔
      (a.kwargs.map (·.1)).Nodup ∧ ∀ x ∈ a.values, x.Sound registry) ∧
    (∀ c, ofArguments registry a = .ok c →
      List.Forall₂ (Mirrors registry "" "") a.args c.args ∧
        List.Forall₂ (fun e v ↦ Mirrors registry e.1 e.1 e.2 v) a.kwargs c.kwargs) ∧
    ∀ e, ofArguments registry a = .error e ↔ ∃ before s after, a.sites = before ++ s :: after ∧
      (∀ t ∈ before, t.fault? registry = none) ∧ s.fault? registry = some e := by
  refine ⟨?_, fun c hc ↦ ?_, fun e ↦ ?_⟩
  · rw [← failure?_eq_none_iff, failure?_ofArguments, List.findSome?_eq_none_iff,
      a.faultless_sites_iff]
  · obtain ⟨hargs, hkwargs⟩ := ofArguments_eq_ok hc
    constructor
    · exact (mapM_eq_some_iff.mp hargs).imp fun x v hv ↦
        Variable.mirrors_of_ofValue (toOption_eq_some_iff.mp hv)
    · exact (ofKeywords_eq_ok hkwargs).1.imp fun e v hv ↦ Variable.mirrors_of_ofValue hv
  · rw [← failure?_eq_some_iff, failure?_ofArguments, List.findSome?_eq_some_iff]
    constructor
    · rintro ⟨before, s, after, hsites, hs, hbefore⟩
      exact ⟨before, s, after, hsites, hbefore, hs⟩
    · rintro ⟨before, s, after, hsites, hbefore, hs⟩
      exact ⟨before, s, after, hsites, hs, hbefore⟩

-- A value that cannot be carried counts before a key that repeats behind it.
example : failure? (ofArguments .builtin {
    args := [.dict [("x", .vector .float []), ("y", .int 1), ("y", .int 2)]] }) = some {
      kind := .marshall
      path := ".x"
      message := "vectors must have 1 to 4 components, got 0" } := by
  rfl

end Call

end KernelCall
