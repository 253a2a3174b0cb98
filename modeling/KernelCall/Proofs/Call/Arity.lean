import KernelCall.Proofs.Call.Seats
import Mathlib.Data.List.Nodup

/-!
# Arity

Whether a call's arguments match a function in number and name depends on how many of them are
positional and on the keywords, not on the values. `Accepts` says it in full, without the order in
which keywords are checked and without the table of filled parameters that the check keeps. The two
agree because the table, at any time, holds the positional places and those of the keywords checked
so far.

A call that is accepted fills every parameter once: the places of its positional arguments and
those its keywords find are a rearrangement of all places.
-/

namespace KernelCall

/-- **A function accepts arguments** of a number and with keywords: there are not too many
positional ones, reserved keywords are used only where there is something to pass, every other
keyword finds a parameter that is not filled by position or by another keyword, and every parameter
is filled. -/
structure Function.Accepts (f : Function) (positional : Nat) (keywords : List String) : Prop where
  positional_le : positional ≤ f.params.length
  receiver : receiverKeyword ∈ keywords → f.receiverType.isSome
  result : resultKeyword ∈ keywords → f.returnType.isSome
  named : ∀ k ∈ keywords, isReserved k = false → ∃ i, f.paramIndex? k = some i ∧ positional ≤ i
  once : ((keywords.filter (!isReserved ·)).map f.paramIndex?).Nodup
  filled : ∀ i < f.params.length, i < positional ∨
    ∃ k ∈ keywords, isReserved k = false ∧ f.paramIndex? k = some i

theorem Function.lt_of_paramIndex? {f : Function} {name : String} {i : Nat}
    (h : f.paramIndex? name = some i) : i < f.params.length :=
  (List.findIdx?_eq_some_iff_getElem.mp h).1

theorem Function.name_of_paramIndex? {f : Function} {name : String} {i : Nat} {p : Parameter}
    (h : f.paramIndex? name = some i) (hp : f.params[i]? = some p) : p.name = name := by
  obtain ⟨_, hname, -⟩ := List.findIdx?_eq_some_iff_getElem.mp h
  obtain ⟨_, rfl⟩ := List.getElem?_eq_some_iff.mp hp
  exact eq_of_beq hname

theorem Function.paramIndex?_of_seat? {f : Function} {name : String} {target : Target}
    {index? : Option Nat} (hname : isReserved name = false)
    (h : f.seat? name = some (target, index?)) : index? = f.paramIndex? name := by
  rw [isReserved, Bool.or_eq_false_iff] at hname
  rw [Function.seat?, hname.1, hname.2] at h
  obtain ⟨⟨i, p⟩, hp, h⟩ := Option.map_eq_some_iff.mp h
  obtain ⟨j, hj, hp⟩ := Option.bind_eq_some_iff.mp hp
  obtain ⟨q, -, hp⟩ := Option.bind_eq_some_iff.mp hp
  cases hp
  cases h
  exact hj.symm

/-- Every accepted keyword has a seat. -/
theorem Function.Accepts.isSome_seat? {f : Function} {n : Nat} {keywords : List String}
    (h : f.Accepts n keywords) : ∀ k ∈ keywords, (f.seat? k).isSome := by
  intro k hk
  cases hname : isReserved k with
  | true =>
    rw [isReserved, Bool.or_eq_true, beq_iff_eq, beq_iff_eq] at hname
    rcases hname with rfl | rfl
    · simpa [seat?] using h.receiver hk
    · have hne : (resultKeyword == receiverKeyword) = false := by decide
      simpa [seat?, hne] using h.result hk
  | false =>
    obtain ⟨i, hi, -⟩ := h.named k hk hname
    rw [seat?_of_paramIndex? hname hi (List.getElem?_eq_getElem (lt_of_paramIndex? hi))]
    rfl

namespace Call

variable {f : Function}

/-! ## The table of filled parameters -/

/-- The places that keywords find. -/
def places? (f : Function) (keywords : List String) : Option (List Nat) :=
  (keywords.filter (!isReserved ·)).mapM f.paramIndex?

theorem checkKeyword_eq_ok_iff {filled : List Nat} {name : String} {index? : Option Nat} :
    checkKeyword f filled name = .ok index? ↔
      (name = receiverKeyword → f.receiverType.isSome) ∧
      (name = resultKeyword → f.returnType.isSome) ∧
      if isReserved name then index? = none
      else ∃ i, f.paramIndex? name = some i ∧ i ∉ filled ∧ index? = some i := by
  have hne : resultKeyword ≠ receiverKeyword := by decide
  rw [checkKeyword, isReserved]
  by_cases hreceiver : name = receiverKeyword
  · subst hreceiver
    cases f.receiverType <;> simp [hne.symm, eq_comm (a := index?)]
  by_cases hresult : name = resultKeyword
  · subst hresult
    cases f.returnType <;> simp [hne, eq_comm (a := index?)]
  cases hindex : f.paramIndex? name with
  | none => simp [hreceiver, hresult]
  | some i =>
    by_cases hfilled : i ∈ filled <;> simp [hreceiver, hresult, hfilled, eq_comm (a := index?)]

theorem checkKeywords_cons_eq_ok_iff {filled filled' : List Nat} {name : String}
    {names : List String} : checkKeywords f filled (name :: names) = .ok filled' ↔
      ∃ index?, checkKeyword f filled name = .ok index? ∧
        checkKeywords f (index?.toList ++ filled) names = .ok filled' := by
  rw [checkKeywords]
  cases checkKeyword f filled name with
  | error e => simp
  | ok index? => cases index? <;> simp

theorem places?_cons_of_reserved {name : String} {names : List String} (h : isReserved name) :
    places? f (name :: names) = places? f names := by
  rw [places?, List.filter_cons_of_neg (by simp [h]), places?]

theorem places?_cons_of_not_reserved {name : String} {names : List String}
    (h : isReserved name = false) : places? f (name :: names) =
      (f.paramIndex? name).bind fun i ↦ (places? f names).map (i :: ·) := by
  rw [places?, List.filter_cons_of_pos (by simp [h]), option_mapM_cons, places?]

/-- What the check of keywords leaves in the table: the places they find, in front of what was there
before and apart from it. -/
theorem checkKeywords_eq_ok_iff {filled filled' : List Nat} {names : List String} :
    checkKeywords f filled names = .ok filled' ↔
      (∀ name ∈ names, (name = receiverKeyword → f.receiverType.isSome) ∧
        (name = resultKeyword → f.returnType.isSome)) ∧
      ∃ is, places? f names = some is ∧ is.Nodup ∧ (∀ i ∈ is, i ∉ filled) ∧
        filled' = is.reverse ++ filled := by
  -- each keyword puts its place on top of the table that the rest are checked against
  induction names generalizing filled with
  | nil => simp [checkKeywords, places?, eq_comm (a := filled')]
  | cons name names ih =>
    rw [checkKeywords_cons_eq_ok_iff, List.forall_mem_cons]
    simp only [checkKeyword_eq_ok_iff, ih]
    cases hname : isReserved name with
    | true =>
      rw [places?_cons_of_reserved hname]
      constructor
      · rintro ⟨_, ⟨hreceiver, hresult, rfl⟩, hnames, hplaces⟩
        exact ⟨⟨⟨hreceiver, hresult⟩, hnames⟩, hplaces⟩
      · rintro ⟨⟨⟨hreceiver, hresult⟩, hnames⟩, hplaces⟩
        exact ⟨none, ⟨hreceiver, hresult, rfl⟩, hnames, hplaces⟩
    | false =>
      rw [places?_cons_of_not_reserved hname]
      constructor
      · rintro ⟨_, ⟨hreceiver, hresult, i, hi, hfree, rfl⟩, hnames, is, his, hnodup, hnot, rfl⟩
        refine ⟨⟨⟨hreceiver, hresult⟩, hnames⟩, i :: is, by rw [hi, Option.bind_some, his]; rfl, ?_⟩
        have hmem : ∀ j ∈ is, j ≠ i ∧ j ∉ filled := by simpa using hnot
        exact ⟨List.nodup_cons.mpr ⟨fun hmem' ↦ (hmem i hmem').1 rfl, hnodup⟩,
          List.forall_mem_cons.mpr ⟨hfree, fun j hj ↦ (hmem j hj).2⟩, by simp⟩
      · rintro ⟨⟨⟨hreceiver, hresult⟩, hnames⟩, is', his', hnodup, hnot, rfl⟩
        obtain ⟨i, hi, his'⟩ := Option.bind_eq_some_iff.mp his'
        obtain ⟨is, his, rfl⟩ := Option.map_eq_some_iff.mp his'
        rw [List.forall_mem_cons] at hnot
        obtain ⟨hi', hnodup⟩ := List.nodup_cons.mp hnodup
        refine ⟨some i, ⟨hreceiver, hresult, i, hi, hnot.1, rfl⟩, hnames, is, his, hnodup, ?_, ?_⟩
        · intro j hj
          simpa using ⟨fun he ↦ hi' (he ▸ hj), hnot.2 j hj⟩
        · simp

theorem map_paramIndex?_of_places? {names : List String} {is : List Nat}
    (h : places? f names = some is) :
    (names.filter (!isReserved ·)).map f.paramIndex? = is.map some :=
  map_eq_of_forall₂ (mapM_eq_some_iff.mp h)

theorem mem_places?_iff {names : List String} {is : List Nat} (h : places? f names = some is)
    {i : Nat} : i ∈ is ↔ ∃ k ∈ names, isReserved k = false ∧ f.paramIndex? k = some i := by
  have hmem : some i ∈ is.map some ↔ i ∈ is := by simp
  rw [← hmem, ← map_paramIndex?_of_places? h]
  simp [and_assoc]

theorem nodup_places?_iff {names : List String} {is : List Nat} (h : places? f names = some is) :
    is.Nodup ↔ ((names.filter (!isReserved ·)).map f.paramIndex?).Nodup := by
  rw [map_paramIndex?_of_places? h, List.nodup_map_iff (fun _ _ ↦ Option.some.inj)]

/-! ## Acceptance -/

private theorem checkArity_eq_ok_iff_filled {c : Call} :
    c.checkArity f = .ok () ↔ c.args.length ≤ f.params.length ∧ ∃ filled,
      checkKeywords f (List.range c.args.length) (c.kwargs.map (·.name)) = .ok filled ∧
        ∀ i < f.params.length, i ∈ filled := by
  rw [checkArity]
  by_cases hlen : f.params.length < c.args.length
  · simp [hlen, Nat.not_le_of_lt hlen]
  rw [if_neg hlen, and_iff_right (Nat.le_of_not_lt hlen)]
  cases checkKeywords f (List.range c.args.length) (c.kwargs.map (·.name)) with
  | error e => simp
  | ok filled =>
    simp only [Except.ok.injEq, exists_eq_left']
    split
    · next p i hfound =>
      -- the parameter found is the one left out
      obtain ⟨hi, -⟩ := List.getElem?_eq_some_iff.mp
        (List.mem_zipIdx_iff_getElem?.mp (List.mem_of_find?_eq_some hfound))
      have hfree : i ∉ filled := by simpa using List.find?_some hfound
      exact iff_of_false (by simp) fun h ↦ hfree (h i hi)
    · next hnone =>
      refine iff_of_true rfl fun i hi ↦ ?_
      have hmem : (f.params[i], i) ∈ f.params.zipIdx :=
        List.mem_zipIdx_iff_getElem?.mpr (by simp [hi])
      simpa using List.find?_eq_none.mp hnone _ hmem

/-- **The check of arity** passes for the arguments that the function accepts, and no others. -/
theorem checkArity_eq_ok_iff {c : Call} :
    c.checkArity f = .ok () ↔ f.Accepts c.args.length (c.kwargs.map (·.name)) := by
  rw [checkArity_eq_ok_iff_filled]
  simp only [checkKeywords_eq_ok_iff]
  constructor
  · rintro ⟨hlen, _, ⟨hreserved, is, his, hnodup, hfree, rfl⟩, hfilled⟩
    refine ⟨hlen, fun h ↦ (hreserved _ h).1 rfl, fun h ↦ (hreserved _ h).2 rfl, fun k hk hk' ↦ ?_,
      (nodup_places?_iff his).mp hnodup, fun i hi ↦ ?_⟩
    · have hmem : k ∈ (c.kwargs.map (·.name)).filter (!isReserved ·) :=
        List.mem_filter.mpr ⟨hk, by rw [hk', Bool.not_false]⟩
      have hplace := List.mem_map_of_mem (f := f.paramIndex?) hmem
      rw [map_paramIndex?_of_places? his] at hplace
      obtain ⟨i, hi, hki⟩ := List.mem_map.mp hplace
      exact ⟨i, hki.symm, by simpa using hfree i hi⟩
    · rcases List.mem_append.mp (hfilled i hi) with hmem | hmem
      · exact Or.inr ((mem_places?_iff his).mp (List.mem_reverse.mp hmem))
      · exact Or.inl (List.mem_range.mp hmem)
  · intro h
    obtain ⟨is, his⟩ : ∃ is, places? f (c.kwargs.map (·.name)) = some is := by
      refine exists_mapM fun k hk ↦ ?_
      rw [List.mem_filter] at hk
      obtain ⟨i, hi, -⟩ := h.named k hk.1 (by simpa using hk.2)
      exact ⟨i, hi⟩
    refine ⟨h.positional_le, _, ⟨fun k hk ↦ ⟨?_, ?_⟩, is, his, (nodup_places?_iff his).mpr h.once,
      fun i hi ↦ ?_, rfl⟩, fun i hi ↦ ?_⟩
    · rintro rfl
      exact h.receiver hk
    · rintro rfl
      exact h.result hk
    · obtain ⟨k, hk, hk', hki⟩ := (mem_places?_iff his).mp hi
      obtain ⟨j, hj, hle⟩ := h.named k hk hk'
      rw [hki] at hj
      cases hj
      simpa using hle
    · rcases h.filled i hi with hlt | hkey
      · exact List.mem_append_right _ (List.mem_range.mpr hlt)
      · exact List.mem_append_left _ (List.mem_reverse.mpr ((mem_places?_iff his).mpr hkey))

end Call

/-- Accepted arguments fill each parameter once: their places are a rearrangement of all places. -/
theorem Function.Accepts.perm {f : Function} {n : Nat} {keywords : List String}
    (h : f.Accepts n keywords) :
    ((List.range n).map some ++ (keywords.filter (!isReserved ·)).map f.paramIndex?).Perm
      ((List.range f.params.length).map some) := by
  have hrange : ∀ m, ((List.range m).map some).Nodup := fun m ↦
    (List.nodup_map_iff (fun _ _ ↦ Option.some.inj)).mpr List.nodup_range
  refine (List.perm_ext_iff_of_nodup (List.nodup_append.mpr ⟨hrange n, h.once, ?_⟩) (hrange _)).mpr
    fun i? ↦ ?_
  · rintro _ hi _ hk rfl
    obtain ⟨i, hlt, rfl⟩ := List.mem_map.mp hi
    obtain ⟨k, hkey, hki⟩ := List.mem_map.mp hk
    rw [List.mem_filter] at hkey
    obtain ⟨j, hj, hle⟩ := h.named k hkey.1 (by simpa using hkey.2)
    rw [hki] at hj
    cases hj
    exact Nat.not_lt.mpr hle (List.mem_range.mp hlt)
  · rw [List.mem_append]
    constructor
    · rintro (hi | hk)
      · obtain ⟨i, hlt, rfl⟩ := List.mem_map.mp hi
        exact List.mem_map_of_mem (List.mem_range.mpr
          (Nat.lt_of_lt_of_le (List.mem_range.mp hlt) h.positional_le))
      · obtain ⟨k, hkey, rfl⟩ := List.mem_map.mp hk
        rw [List.mem_filter] at hkey
        obtain ⟨i, hki, -⟩ := h.named k hkey.1 (by simpa using hkey.2)
        rw [hki]
        exact List.mem_map_of_mem (List.mem_range.mpr (lt_of_paramIndex? hki))
    · intro hi
      obtain ⟨i, hlt, rfl⟩ := List.mem_map.mp hi
      rcases h.filled i (List.mem_range.mp hlt) with hpos | ⟨k, hk, hk', hki⟩
      · exact Or.inl (List.mem_map_of_mem (List.mem_range.mpr hpos))
      · exact Or.inr (List.mem_map.mpr ⟨k, List.mem_filter.mpr ⟨hk, by rw [hk']; rfl⟩, hki⟩)

/-- Variables of accepted arguments that are where their positions and keywords say fill each place
once. -/
theorem Call.perm_places {f : Function} {c : Call}
    (haccepts : f.Accepts c.args.length (c.kwargs.map (·.name)))
    (hargs : c.args.map (·.node.paramIndex?) = (List.range c.args.length).map some)
    (hkwargs : ∀ v ∈ c.kwargs, isReserved v.name = false →
      v.node.paramIndex? = f.paramIndex? v.name) :
    ((c.args ++ c.kwargs.filter (!isReserved ·.name)).map (·.node.paramIndex?)).Perm
      ((List.range f.params.length).map some) := by
  have hplaces : (c.kwargs.filter (!isReserved ·.name)).map (·.node.paramIndex?) =
      ((c.kwargs.map (·.name)).filter (!isReserved ·)).map f.paramIndex? := by
    rw [List.filter_map, List.map_map]
    refine List.map_congr_left fun v hv ↦ ?_
    rw [List.mem_filter] at hv
    exact hkwargs v hv.1 (by simpa using hv.2)
  rw [List.map_append, hargs, hplaces]
  exact haccepts.perm

end KernelCall
