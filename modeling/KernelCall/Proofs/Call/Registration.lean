import KernelCall.Proofs.Call.Mirror

/-!
# Registering marshalls

A factory that is registered for a kind takes the place of the one before, and nothing else changes.
When the variables of a call are made, a marshall is looked up for each value, by the kind of the
value and by nothing else. So two registries that carry all values of a call alike make the same call
of them (`Call.ofArguments_congr`), and what a new factory does to a call is settled by what it does
to the values of its kind: it may refuse them, give all of them one marshall, or leave them as they
were.
-/

namespace KernelCall

namespace MarshallRegistry

variable {registry : MarshallRegistry} {kind : HostKind} {factory : MarshallFactory} {x : HostValue}

theorem forValue_register_self :
    (registry.register x.kind factory).forValue x = factory (some x) := by
  rw [forValue, make, factory?_register_self]

theorem forValue_register_of_ne (h : x.kind ≠ kind) :
    (registry.register kind factory).forValue x = registry.forValue x := by
  have hfactory : (registry.register kind factory).factory? x.kind = registry.factory? x.kind := by
    rw [factory?, register, List.find?_cons_of_neg (by simpa using h.symm), factory?]
  rw [forValue, make, hfactory, forValue, make]

theorem forValue_builtin (x : HostValue) :
    builtin.forValue x = MarshallFactory.builtin x.kind (some x) := by
  rw [forValue, make, factory?_builtin]

/-- A factory for another kind carries a value as the bare kind. -/
theorem forValue_onlyFor_of_ne (h : x.kind ≠ kind) :
    (registry.register x.kind (.onlyFor kind)).forValue x = builtin.forKind kind := by
  have hnone : (some x).filter (·.kind == kind) = none := by simpa using h
  rw [forValue_register_self, MarshallFactory.onlyFor, hnone, forKind, make, factory?_builtin]

theorem forValue_register_onlyFor (kind : HostKind) (x : HostValue) :
    (builtin.register kind (.onlyFor kind)).forValue x = builtin.forValue x := by
  by_cases h : x.kind = kind
  · subst h
    rw [forValue_register_self, MarshallFactory.onlyFor, Option.filter_some, if_pos (by simp),
      forValue_builtin]
  · exact forValue_register_of_ne h

end MarshallRegistry

/-! ## Registries that carry values alike -/

namespace Variable

variable {registry registry' : MarshallRegistry}

theorem ofEntries_congr {path : String} {seen : List String} {entries : List (String × HostValue)}
    (h : ∀ e ∈ entries, ofValue registry (subpath path e.1) e.1 e.2 =
      ofValue registry' (subpath path e.1) e.1 e.2) :
    ofEntries registry path seen entries = ofEntries registry' path seen entries := by
  induction entries generalizing seen with
  | nil => rfl
  | cons e entries ih =>
    obtain ⟨key, x⟩ := e
    rw [List.forall_mem_cons] at h
    rw [ofEntries, ofEntries, h.1, ih h.2]

theorem ofValue_congr {x : HostValue}
    (h : ∀ y ∈ x.values, registry.forValue y = registry'.forValue y) (path name : String) :
    ofValue registry path name x = ofValue registry' path name x := by
  induction x using HostValue.entrywise generalizing path name with
  | plain x hx =>
    rw [x.values_of_not_dict hx, List.forall_mem_singleton] at h
    rw [ofValue_of_not_dict registry path name hx, ofValue_of_not_dict registry' path name hx,
      MarshallRegistry.carry, MarshallRegistry.carry, h]
  | dict entries ih =>
    rw [HostValue.values, List.forall_mem_cons, HostValue.entryValues_eq_flatMap,
      List.forall_mem_flatMap] at h
    rw [ofValue, ofValue, MarshallRegistry.carry, MarshallRegistry.carry, h.1,
      ofEntries_congr fun e he ↦ ih e he (h.2 e he) _ _]

/-- A value of the kind that has been registered for is carried by the new factory. -/
theorem marshall_of_mirrors {registry : MarshallRegistry} {m : Marshall} {path name : String}
    {x : HostValue} {v : Variable}
    (h : Mirrors (registry.register x.kind (.always m)) path name x v) : v.node.marshall = m := by
  have hvalue : (registry.register x.kind (.always m)).forValue x = .ok m :=
    MarshallRegistry.forValue_register_self
  cases h with
  | leaf _ _ _ carried => exact Except.ok.inj (carried.symm.trans hvalue)
  | dict _ _ carried => exact Except.ok.inj (carried.symm.trans hvalue)

end Variable

namespace Call

variable {registry registry' : MarshallRegistry} {kind : HostKind} {a : Arguments}

theorem ofKeywords_congr {seen : List String} {kwargs : List (String × HostValue)}
    (h : ∀ e ∈ kwargs, ∀ x ∈ e.2.values, registry.forValue x = registry'.forValue x) :
    ofKeywords registry seen kwargs = ofKeywords registry' seen kwargs := by
  induction kwargs generalizing seen with
  | nil => rfl
  | cons e kwargs ih =>
    obtain ⟨name, x⟩ := e
    rw [List.forall_mem_cons] at h
    rw [ofKeywords, ofKeywords, Variable.ofValue_congr h.1, ih h.2]

/-- **Only the values of a call count.** Registries that carry them alike make the same call, or fail
with the same error. -/
theorem ofArguments_congr
    (h : ∀ x ∈ a.values, registry.forValue x = registry'.forValue x) :
    ofArguments registry a = ofArguments registry' a := by
  rw [Arguments.values, List.forall_mem_append, List.forall_mem_flatMap,
    List.forall_mem_flatMap] at h
  have hargs : a.args.mapM (Variable.ofValue registry "" "") =
      a.args.mapM (Variable.ofValue registry' "" "") :=
    mapM_congr fun x hx ↦ Variable.ofValue_congr (h.1 x hx) "" ""
  rw [ofArguments, ofArguments, hargs, ofKeywords_congr h.2]

theorem ofArguments_register_of_ne {factory : MarshallFactory}
    (h : ∀ x ∈ a.values, x.kind ≠ kind) :
    ofArguments (registry.register kind factory) a = ofArguments registry a :=
  ofArguments_congr fun x hx ↦ MarshallRegistry.forValue_register_of_ne (h x hx)

theorem ofArguments_register_onlyFor (kind : HostKind) (a : Arguments) :
    ofArguments (MarshallRegistry.builtin.register kind (.onlyFor kind)) a =
      ofArguments .builtin a :=
  ofArguments_congr fun x _ ↦ MarshallRegistry.forValue_register_onlyFor kind x

/-- **Refusing a kind.** Once a kind of value is refused, a call can be made of exactly those
arguments that none of their values is of this kind, and it is the call that was made before. -/
theorem ofArguments_register_refusing_eq_ok_iff {message : String} {c : Call} :
    ofArguments (registry.register kind (.refusing message)) a = .ok c ↔
      ofArguments registry a = .ok c ∧ ∀ x ∈ a.values, x.kind ≠ kind := by
  constructor
  · intro h
    have hfree : ∀ x ∈ a.values, x.kind ≠ kind := by
      rintro x hx rfl
      have hsites := failure?_ofArguments a ▸ failure?_eq_none_iff.mpr ⟨c, h⟩
      rw [List.findSome?_eq_none_iff, a.faultless_sites_iff] at hsites
      obtain ⟨m, hm⟩ := (hsites.2 x hx).1
      rw [MarshallRegistry.forValue_register_self] at hm
      cases hm
    exact ⟨ofArguments_register_of_ne hfree ▸ h, hfree⟩
  · rintro ⟨h, hfree⟩
    rwa [ofArguments_register_of_ne hfree]

end Call

end KernelCall
