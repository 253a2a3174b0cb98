import KernelCall.Proofs.Call.Bound

/-!
# Seats by name

A variable of a bound call is named after its seat. Whether it was passed by position or by keyword
does not matter: a keyword that names a parameter behind the positional ones has that parameter's
seat, for no other variable could have filled it. Two calls of one function whose variables have the
same names in the same order have them in the same seats.
-/

namespace KernelCall

theorem Function.seat?_of_paramIndex? {f : Function} {name : String} {i : Nat} {p : Parameter}
    (hname : isReserved name = false) (hi : f.paramIndex? name = some i)
    (hp : f.params[i]? = some p) : f.seat? name = some (⟨p.type, p.modifiers⟩, some i) := by
  rw [isReserved, Bool.or_eq_false_iff] at hname
  have hparam : f.param? name = some (i, p) := by simp [param?, hi, hp]
  simp [seat?, hname, hparam]

namespace Call

theorem filled_of_checkKeyword {f : Function} {filled : List Nat} {name : String} {index : Nat}
    (h : checkKeyword f filled name = .ok (some index)) :
    isReserved name = false ∧ f.paramIndex? name = some index := by
  rw [checkKeyword] at h
  by_cases hreceiver : name == receiverKeyword
  · rw [if_pos hreceiver] at h
    split at h <;> cases h
  rw [if_neg hreceiver] at h
  by_cases hresult : name == resultKeyword
  · rw [if_pos hresult] at h
    split at h <;> cases h
  rw [if_neg hresult] at h
  refine ⟨Bool.or_eq_false_iff.mpr ⟨by simpa using hreceiver, by simpa using hresult⟩, ?_⟩
  split at h
  · cases h
  next hindex =>
  split at h
  · cases h
  · cases h
    exact hindex

/-- What is filled after keywords was filled before, or is found by one of them. -/
theorem filled_of_checkKeywords {f : Function} {filled filled' : List Nat} {names : List String}
    (h : checkKeywords f filled names = .ok filled') {i : Nat} (hi : i ∈ filled') :
    i ∈ filled ∨ ∃ name ∈ names, isReserved name = false ∧ f.paramIndex? name = some i := by
  induction names generalizing filled with
  | nil =>
    cases h
    exact Or.inl hi
  | cons name names ih =>
    rw [checkKeywords] at h
    split at h
    · cases h
    · rcases ih h with hmem | ⟨k, hk, hfound⟩
      · exact Or.inl hmem
      · exact Or.inr ⟨k, List.mem_cons_of_mem _ hk, hfound⟩
    · next index hkey =>
      rcases ih h with hmem | ⟨k, hk, hfound⟩
      · rcases List.mem_cons.mp hmem with rfl | hmem
        · exact Or.inr ⟨name, List.mem_cons_self, filled_of_checkKeyword hkey⟩
        · exact Or.inl hmem
      · exact Or.inr ⟨k, List.mem_cons_of_mem _ hk, hfound⟩

/-- A call whose arity is right fills every parameter, by position or by a keyword that finds it. -/
theorem filled_of_checkArity {f : Function} {c : Call} (h : c.checkArity f = .ok ()) {i : Nat}
    (hi : i < f.params.length) : i < c.args.length ∨
      ∃ v ∈ c.kwargs, isReserved v.name = false ∧ f.paramIndex? v.name = some i := by
  rw [checkArity] at h
  split at h
  · cases h
  split at h
  · cases h
  next filled hfilled =>
  split at h
  · cases h
  next hnone =>
  have hmem : i ∈ filled := by
    have := List.find?_eq_none.mp hnone (f.params[i], i) (List.mem_zipIdx_iff_getElem?.mpr (by simp [hi]))
    simpa using this
  rcases filled_of_checkKeywords hfilled hmem with hpos | ⟨name, hname, hkey⟩
  · exact Or.inl (List.mem_range.mp hpos)
  · obtain ⟨v, hv, rfl⟩ := List.mem_map.mp hname
    exact Or.inr ⟨v, hv, hkey⟩

variable {f : Function} {c c' : Call}

/-- Behind the positional variables of a bound call, the name of a parameter finds that parameter. -/
theorem Bound.seat?_param (h : c.Bound f) {i : Nat} {p : Parameter} (hi : c.args.length ≤ i)
    (hp : f.params[i]? = some p) :
    isReserved p.name = false ∧ f.seat? p.name = some (⟨p.type, p.modifiers⟩, some i) := by
  obtain ⟨hlt, -⟩ := List.getElem?_eq_some_iff.mp hp
  rcases filled_of_checkArity h.arity hlt with hpos | ⟨v, -, hv, hindex⟩
  · exact absurd hpos (Nat.not_lt.mpr hi)
  have hname : p.name = v.name := by
    have hparam : f.param? v.name = some (i, p) := by simp [Function.param?, hindex, hp]
    exact (Function.name_of_param? hparam).1
  rw [hname]
  exact ⟨hv, Function.seat?_of_paramIndex? hv hindex hp⟩

/-- A root is in the seat of its position, or in that of its keyword. -/
theorem Bound.seated (h : c.Bound f) {i : Nat} {v : Variable} (hv : c.roots[i]? = some v) :
    (∃ p, f.params[i]? = some p ∧ v.Seated p.name ⟨p.type, p.modifiers⟩ (some i)) ∨
      (c.args.length ≤ i ∧ v ∈ c.kwargs ∧ ∃ target index?, f.seat? v.name = some (target, index?) ∧
        v.Seated v.name target index?) := by
  by_cases hi : i < c.args.length
  · rw [roots, List.getElem?_append_left hi] at hv
    exact Or.inl (h.positional i v hv)
  · have hi := Nat.le_of_not_lt hi
    rw [roots, List.getElem?_append_right hi] at hv
    have hmem := List.mem_of_getElem? hv
    exact Or.inr ⟨hi, hmem, h.keyword v hmem⟩

/-- **Names tell seats.** Roots of one name in the same place are in the same seat. -/
theorem Bound.seated_alike (h : c.Bound f) (h' : c'.Bound f) {i : Nat} {v w : Variable}
    (hv : c.roots[i]? = some v) (hw : c'.roots[i]? = some w) (hname : v.name = w.name) :
    ∃ target index?, v.Seated v.name target index? ∧ w.Seated v.name target index? := by
  rcases h.seated hv with ⟨p, hp, hseat⟩ | ⟨hi, -, target, index?, hkey, hseat⟩
  · rcases h'.seated hw with ⟨q, hq, hseat'⟩ | ⟨hi', -, target, index?, hkey, hseat'⟩
    · rw [hp] at hq
      cases hq
      exact ⟨_, _, hseat.1 ▸ hseat, hseat.1 ▸ hseat'⟩
    · rw [← hname, hseat.1, (h'.seat?_param hi' hp).2] at hkey
      cases hkey
      rw [← hname, hseat.1] at hseat'
      exact ⟨_, _, hseat.1 ▸ hseat, hseat.1 ▸ hseat'⟩
  · rcases h'.seated hw with ⟨q, hq, hseat'⟩ | ⟨hi', -, target', index?', hkey', hseat'⟩
    · rw [hname, hseat'.1, (h.seat?_param hi hq).2] at hkey
      cases hkey
      rw [hname, hseat'.1] at hseat ⊢
      exact ⟨_, _, hseat, hseat'⟩
    · rw [← hname, hkey] at hkey'
      cases hkey'
      rw [← hname] at hseat'
      exact ⟨_, _, hseat, hseat'⟩

theorem Bound.reserved_keyword (h : c.Bound f) (h' : c'.Bound f)
    (hnames : c.roots.map (·.name) = c'.roots.map (·.name)) {name : String}
    (hname : isReserved name) (hmem : name ∈ c.kwargs.map (·.name)) :
    name ∈ c'.kwargs.map (·.name) := by
  obtain ⟨v, hv, rfl⟩ := List.mem_map.mp hmem
  obtain ⟨i, hi⟩ := List.mem_iff_getElem?.mp hv
  have hroot : c.roots[c.args.length + i]? = some v := by
    rw [roots, List.getElem?_append_right (Nat.le_add_right _ _), Nat.add_sub_cancel_left, hi]
  have hroot' := congrArg (·[c.args.length + i]?) hnames
  simp only [List.getElem?_map, hroot, Option.map_some] at hroot'
  obtain ⟨w, hw, hvw⟩ := Option.map_eq_some_iff.mp hroot'.symm
  rcases h'.seated hw with ⟨p, hp, hseat⟩ | ⟨-, hw, -⟩
  · -- a positional variable behind those of the first call is named after a parameter
    have hfree := (h.seat?_param (Nat.le_add_right _ _) hp).1
    rw [← hseat.1, hvw, hname] at hfree
    cases hfree
  · exact List.mem_map.mpr ⟨w, hw, hvw⟩

theorem map_name_kwarg? (c : Call) (name : String) :
    (c.kwarg? name).map (·.name) = if name ∈ c.kwargs.map (·.name) then some name else none := by
  cases hc : c.kwarg? name with
  | none =>
    rw [kwarg?, List.find?_eq_none] at hc
    rw [if_neg (by simpa using hc)]
    rfl
  | some v =>
    have hv : v.name = name := by simpa using List.find?_some hc
    rw [if_pos (hv ▸ List.mem_map_of_mem (List.mem_of_find?_eq_some hc)), Option.map_some, hv]

/-- Which keywords are there is the same in both calls, as far as they are reserved. -/
theorem Bound.name_kwarg? (h : c.Bound f) (h' : c'.Bound f)
    (hnames : c.roots.map (·.name) = c'.roots.map (·.name)) {name : String}
    (hname : isReserved name) :
    (c.kwarg? name).map (·.name) = (c'.kwarg? name).map (·.name) := by
  rw [map_name_kwarg?, map_name_kwarg?]
  by_cases hmem : name ∈ c.kwargs.map (·.name)
  · rw [if_pos hmem, if_pos (h.reserved_keyword h' hnames hname hmem)]
  · rw [if_neg hmem, if_neg fun hmem' ↦ hmem (h'.reserved_keyword h hnames.symm hname hmem')]

end Call

end KernelCall
