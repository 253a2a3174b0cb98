import KernelCall.Proofs.Call.Order
import KernelCall.Proofs.Call.Place

/-!
# Ways of passing arguments

How arguments are passed does not change what they bind to. Two ways of passing the same values
give them the same seats and the same overrides, in another order at most, and with them comes
everything else. Where the order is the same too, as it is for the last positional argument and the
first keyword argument, so is the code, to the letter.
-/

namespace KernelCall

/-! ## Names of passings -/

theorem names_positionalPassing (index : Nat) (xs : List HostValue) (ps : List Parameter)
    (os : List Override) :
    (positionalPassing index xs ps os).map (·.seat.name) = (ps.take xs.length).map (·.name) := by
  induction xs generalizing index ps os with
  | nil => simp [positionalPassing]
  | cons x xs ih =>
    cases ps with
    | nil => simp [positionalPassing]
    | cons p ps => simp [positionalPassing, ih]

theorem names_keywordPassing {f : Function} {kwargs : List (String × HostValue)}
    (h : ∀ e ∈ kwargs, (f.seat? e.1).isSome) (os : List (String × Override)) :
    (keywordPassing f kwargs os).map (·.seat.name) = kwargs.map (·.1) := by
  induction kwargs with
  | nil => rfl
  | cons e kwargs ih =>
    rw [List.forall_mem_cons] at h
    obtain ⟨ti, hseat⟩ := Option.isSome_iff_exists.mp h.1
    have hrest := ih h.2
    rw [keywordPassing] at hrest
    simp [keywordPassing, hseat, hrest]

namespace Call

variable {f : Function} {a a' : Arguments} {o o' : Vectorization}

theorem names_passings (h : f.Admits a o) : (passings f a o).map (·.seat.name) =
    (f.params.take a.args.length).map (·.name) ++ a.kwargs.map (·.1) := by
  rw [passings, List.map_append, names_positionalPassing, names_keywordPassing fun e he ↦
    h.accepts.isSome_seat? e.1 (List.mem_map_of_mem he)]

theorem nodup_names_passings (hf : f.Named) (h : f.Admits a o) :
    ((passings f a o).map (·.seat.name)).Nodup := by
  rw [names_passings h]
  refine List.nodup_append.mpr
    ⟨hf.distinct.sublist ((List.take_sublist _ _).map _), h.once, ?_⟩
  rintro name hparam _ hkey rfl
  obtain ⟨p, hp, rfl⟩ := List.mem_map.mp hparam
  obtain ⟨i, hi⟩ := List.mem_iff_getElem?.mp hp
  rw [List.getElem?_take] at hi
  split at hi
  · next hlt =>
    obtain ⟨j, hj, hle⟩ := h.accepts.named p.name hkey (hf.free p (List.mem_of_mem_take hp))
    rw [hf.paramIndex? hi] at hj
    cases hj
    exact Nat.not_lt.mpr hle hlt
  · cases hi

theorem mem_names_passings (h : f.Admits a o) {p : Parameter} (hp : p ∈ f.params) :
    p.name ∈ (passings f a o).map (·.seat.name) := by
  rw [names_passings h, List.mem_append]
  obtain ⟨i, hi⟩ := List.mem_iff_getElem?.mp hp
  obtain ⟨hlt, hget⟩ := List.getElem?_eq_some_iff.mp hi
  rcases h.accepts.filled i hlt with hpos | ⟨k, hk, -, hindex⟩
  · exact Or.inl (List.mem_map_of_mem (List.mem_take_iff_getElem.mpr
      ⟨i, Nat.lt_min.mpr ⟨hpos, hlt⟩, hget⟩))
  · exact Or.inr (Function.name_of_paramIndex? hindex hi ▸ hk)

variable {lookup : Lookup} {settings : Settings} {b b' : BuiltCall}

theorem names_of_build (h : build lookup settings f a o = .ok b) : f.Admits a o ∧
    b.call.roots.map (·.name) = (passings f a o).map (·.seat.name) := by
  obtain ⟨c, hc, -, hsettled, -⟩ := build_eq_ok_iff.mp h
  have hroots := mapM_eq_some_iff.mp (roots_of_designated? hc)
  have hpassings : (passings f a o).map (·.seat.name) = c.roots.map (·.name) :=
    map_eq_of_forall₂ (hroots.imp fun _ _ hw ↦ (Passing.name_of_root? hw).symm)
  have hnames : c.roots.map (·.name) = b.call.roots.map (·.name) :=
    map_eq_of_forall₂ ((mapM_eq_some_iff.mp (roots_of_mapM? hsettled)).imp fun _ _ hvw ↦
      (related_of_settled? hvw).node.1.name.symm)
  exact ⟨(designated?_eq_some_iff_passing.mp hc).1, (hpassings.trans hnames).symm⟩

end Call

/-! ## Builds that agree -/

/-- Two built calls of a function agree on everything but the order of their roots. -/
structure BuiltCall.Agree (f : Function) (b b' : BuiltCall) : Prop where
  gridRank : b'.gridRank = b.gridRank
  roots : b.call.roots.Perm b'.call.roots
  /-- Each parameter has the same variable, down to its last node. -/
  param : ∀ p ∈ f.params, ∃ v, b.call.roots.find? (·.name == p.name) = some v ∧
    b'.call.roots.find? (·.name == p.name) = some v
  /-- The same holds of any other name, that of a reserved keyword among them. -/
  named : ∀ name, b.call.roots.find? (·.name == name) = b'.call.roots.find? (·.name == name)
  statement : b'.call.statement f = b.call.statement f

namespace Call

variable {f : Function} {a a' : Arguments} {o o' : Vectorization} {lookup : Lookup}
  {settings : Settings} {b b' : BuiltCall}

/-- **The order of passings does not matter.** -/
theorem exists_build_of_passings (hf : f.Named) (hadmits : f.Admits a o → f.Admits a' o')
    (hpassings : f.Admits a o → (passings f a o).Perm (passings f a' o'))
    (h : build lookup settings f a o = .ok b) :
    ∃ b', build lookup settings f a' o' = .ok b' ∧ b.Agree f b' := by
  obtain ⟨hadmitted, hnames⟩ := names_of_build h
  obtain ⟨c, hc, hrank, hsettled, m, hm, -⟩ := build_eq_ok_iff.mp h
  -- the roots before they are settled, then after
  obtain ⟨vs, hvs, hperm⟩ :=
    exists_mapM_of_perm (hpassings hadmitted) (roots_of_designated? hc)
  obtain ⟨c', hc', rfl⟩ := exists_designated? (hadmits hadmitted) hvs
  obtain ⟨ws, hws, hroots⟩ := exists_mapM_of_perm hperm (roots_of_mapM? hsettled)
  obtain ⟨d, hd, rfl⟩ := exists_mapM?_of_roots hws
  have hbound := bound_of_build h
  have hbound' := bound_of_settled? hd (bound_of_designated? hc')
  obtain ⟨m', hm'⟩ : ∃ m', d.emit b.gridRank = .ok m' :=
    (exists_emit_iff hbound'.function).mpr fun v hv ↦
      (exists_emit_iff hbound.function).mp ⟨m, hm⟩ v (hroots.mem_iff.mpr hv)
  have hnodup : (b.call.roots.map (·.name)).Nodup := hnames ▸ nodup_names_passings hf hadmitted
  have hnamed : ∀ name, b.call.roots.find? (·.name == name) = d.roots.find? (·.name == name) :=
    find?_key_perm hroots hnodup
  refine ⟨⟨d, b.gridRank, m'.text⟩, build_eq_ok_iff.mpr
    ⟨c', hc', settledRank?_perm hperm hrank, hd, m', hm', rfl⟩, rfl, hroots, fun p hp ↦ ?_, hnamed,
    (hbound.statement_perm hbound' hf hroots).symm⟩
  obtain ⟨v, hv, hname⟩ := List.mem_map.mp (hnames ▸ mem_names_passings hadmitted hp)
  have hfind := Variable.find?_name_of_mem hnodup hv
  rw [hname] at hfind
  exact ⟨v, hfind, hnamed p.name ▸ hfind⟩

/-- Where the passings come in one order, so does everything that follows. -/
theorem identical_of_passings (hpassings : passings f a o = passings f a' o')
    (h : build lookup settings f a o = .ok b) (h' : build lookup settings f a' o' = .ok b')
    (hagree : b.Agree f b') : b'.code = b.code ∧ b'.call.signature = b.call.signature := by
  obtain ⟨c, hc, -, hsettled, m, hm, hcode⟩ := build_eq_ok_iff.mp h
  obtain ⟨c', hc', -, hsettled', m', hm', hcode'⟩ := build_eq_ok_iff.mp h'
  have hdesignated : c.roots = c'.roots := by
    have hroots := roots_of_designated? hc
    rw [hpassings, roots_of_designated? hc'] at hroots
    exact (Option.some.inj hroots).symm
  have hroots : b.call.roots = b'.call.roots := by
    have hroots := roots_of_mapM? hsettled
    rw [hdesignated, ← hagree.gridRank, roots_of_mapM? hsettled'] at hroots
    exact (Option.some.inj hroots).symm
  have hfunction := (bound_of_build h).function
  have hfunction' := (bound_of_build h').function
  constructor
  · rw [hagree.gridRank, ← emit_congr hfunction hfunction' hroots hagree.statement.symm, hm] at hm'
    cases hm'
    rw [hcode, hcode']
  · rw [signature, signature, functionName, functionName, hfunction, hfunction', hroots]

/-- Two builds that succeed with each other are related if their calls are. -/
theorem rel_build {R : BuiltCall → BuiltCall → Prop}
    (h : ∀ b, build lookup settings f a o = .ok b →
      ∃ b', build lookup settings f a' o' = .ok b' ∧ R b b')
    (h' : ∀ b', build lookup settings f a' o' = .ok b' →
      ∃ b, build lookup settings f a o = .ok b) :
    Option.Rel R (build lookup settings f a o).toOption
      (build lookup settings f a' o').toOption := by
  cases hb : build lookup settings f a o with
  | ok b =>
    obtain ⟨b', hb', hr⟩ := h b hb
    rw [hb']
    exact .some hr
  | error e =>
    cases hb' : build lookup settings f a' o' with
    | error e' => exact .none
    | ok b' =>
      obtain ⟨b, hb''⟩ := h' b' hb'
      rw [hb] at hb''
      cases hb''

end Call

/-! ## Keywords in another order -/

/-- Keyword arguments and keyword overrides are listed in another order. -/
structure Reordered (a a' : Arguments) (o o' : Vectorization) : Prop where
  args : a'.args = a.args
  kwargs : a.kwargs.Perm a'.kwargs
  positional : o'.args = o.args
  keyword : o.kwargs.Perm o'.kwargs

theorem Function.Accepts.of_perm {f : Function} {n : Nat} {ks ks' : List String}
    (h : f.Accepts n ks) (hperm : ks.Perm ks') : f.Accepts n ks' where
  positional_le := h.positional_le
  receiver hk := h.receiver (hperm.mem_iff.mpr hk)
  result hk := h.result (hperm.mem_iff.mpr hk)
  named k hk := h.named k (hperm.mem_iff.mpr hk)
  once := ((hperm.filter _).map _).nodup_iff.mp h.once
  filled i hi := (h.filled i hi).imp_right fun ⟨k, hk, hindex⟩ ↦ ⟨k, hperm.mem_iff.mp hk, hindex⟩

namespace Reordered

variable {f : Function} {a a' : Arguments} {o o' : Vectorization}

theorem symm (h : Reordered a a' o o') : Reordered a' a o' o :=
  ⟨h.args.symm, h.kwargs.symm, h.positional.symm, h.keyword.symm⟩

theorem admits (h : Reordered a a' o o') (hadmits : f.Admits a o) : f.Admits a' o' := by
  have hkeys := h.kwargs.map Prod.fst
  have hoverrides := h.keyword.map Prod.fst
  refine ⟨hkeys.nodup_iff.mp hadmits.once, ?_, ?_, fun k hk ↦ ?_, ?_⟩
  · rw [h.args]
    exact hadmits.accepts.of_perm hkeys
  · rw [h.args, h.positional]
    exact hadmits.suits.positional_le
  · exact hkeys.mem_iff.mp (hadmits.suits.named k (hoverrides.mem_iff.mpr hk))
  · exact hoverrides.nodup_iff.mp hadmits.suits.once

theorem passings (h : Reordered a a' o o') (hadmits : f.Admits a o) :
    (Call.passings f a o).Perm (Call.passings f a' o') := by
  have hoverride := Override.entry?_perm h.keyword hadmits.suits.once
  rw [Call.passings, Call.passings, h.args, h.positional, keywordPassing, keywordPassing]
  simp only [hoverride]
  exact (h.kwargs.filterMap _).append_left _

end Reordered

/-! ## The last positional argument -/

/-- The last positional argument is passed as the first keyword argument instead, under the name of
its parameter, and its override, if it has one, by that keyword. -/
structure LastByKeyword (f : Function) (p : Parameter) (x : HostValue) (a a' : Arguments)
    (o o' : Vectorization) : Prop where
  args : a.args = a'.args ++ [x]
  param : f.params[a'.args.length]? = some p
  kwargs : a'.kwargs = (p.name, x) :: a.kwargs
  positional : o'.args = o.args.eraseIdx a'.args.length
  keyword : o'.kwargs.Perm (((o.args[a'.args.length]?).map (p.name, ·)).toList ++ o.kwargs)
  override : Override.entry? o'.kwargs p.name = o.args[a'.args.length]?

theorem positionalPassing_append {p : Parameter} {x : HostValue} {index : Nat} {xs : List HostValue}
    {ps : List Parameter} (hp : ps[xs.length]? = some p) (os : List Override) :
    positionalPassing index (xs ++ [x]) ps os =
      positionalPassing index xs ps (os.eraseIdx xs.length) ++
        [⟨⟨p.name, ⟨p.type, p.modifiers⟩, some (index + xs.length)⟩, x, os[xs.length]?⟩] := by
  induction xs generalizing index ps os with
  | nil =>
    cases ps with
    | nil => cases hp
    | cons q ps =>
      cases hp
      cases os <;> rfl
  | cons y xs ih =>
    cases ps with
    | nil => cases hp
    | cons q ps =>
      rw [List.length_cons, List.getElem?_cons_succ] at hp
      rw [List.cons_append, positionalPassing, ih hp, List.length_cons, Nat.add_right_comm,
        Nat.add_assoc]
      cases os <;> rfl

section

variable {f : Function} {n : Nat} {p : Parameter} {ks : List String}

/-- Instead of the first of the keywords one positional argument more is accepted. -/
theorem Function.Accepts.of_cons (h : f.Accepts n (p.name :: ks)) (hf : f.Named)
    (hp : f.params[n]? = some p) (hnew : p.name ∉ ks) : f.Accepts (n + 1) ks where
  positional_le := (List.getElem?_eq_some_iff.mp hp).1
  receiver hk := h.receiver (List.mem_cons_of_mem _ hk)
  result hk := h.result (List.mem_cons_of_mem _ hk)
  named k hk hname := by
    obtain ⟨i, hi, hle⟩ := h.named k (List.mem_cons_of_mem _ hk) hname
    refine ⟨i, hi, Nat.lt_of_le_of_ne hle ?_⟩
    rintro rfl
    exact hnew (Function.name_of_paramIndex? hi hp ▸ hk)
  once := h.once.sublist (((List.sublist_cons_self _ _).filter _).map _)
  filled i hi := by
    rcases h.filled i hi with hpos | ⟨k, hk, hname, hki⟩
    · exact Or.inl (Nat.lt_succ_of_lt hpos)
    · rcases List.mem_cons.mp hk with rfl | hk
      · rw [hf.paramIndex? hp] at hki
        cases hki
        exact Or.inl (Nat.lt_succ_self n)
      · exact Or.inr ⟨k, hk, hname, hki⟩

/-- Instead of the last positional argument its parameter's name is accepted as a keyword. -/
theorem Function.Accepts.cons (h : f.Accepts (n + 1) ks) (hf : f.Named)
    (hp : f.params[n]? = some p) (hnew : p.name ∉ ks) : f.Accepts n (p.name :: ks) := by
  have hfree := hf.free p (List.mem_of_getElem? hp)
  have hindex := hf.paramIndex? hp
  have hreserved : ∀ k ∈ p.name :: ks, isReserved k → k ∈ ks := by
    intro k hk hname
    rcases List.mem_cons.mp hk with rfl | hk
    · rw [hfree] at hname
      cases hname
    · exact hk
  refine ⟨Nat.le_of_succ_le h.positional_le, fun hk ↦ h.receiver (hreserved _ hk rfl),
    fun hk ↦ h.result (hreserved _ hk rfl), fun k hk hname ↦ ?_, ?_, fun i hi ↦ ?_⟩
  · rcases List.mem_cons.mp hk with rfl | hk
    · exact ⟨n, hindex, Nat.le_refl n⟩
    · obtain ⟨i, hi, hle⟩ := h.named k hk hname
      exact ⟨i, hi, Nat.le_of_succ_le hle⟩
  · rw [List.filter_cons_of_pos (by rw [hfree, Bool.not_false]), List.map_cons, hindex,
      List.nodup_cons]
    refine ⟨fun hmem ↦ ?_, h.once⟩
    obtain ⟨k, hk, hki⟩ := List.mem_map.mp hmem
    exact hnew (Function.name_of_paramIndex? hki hp ▸ (List.mem_filter.mp hk).1)
  · rcases h.filled i hi with hpos | ⟨k, hk, hname, hki⟩
    · rcases Nat.lt_succ_iff_lt_or_eq.mp hpos with hpos | rfl
      · exact Or.inl hpos
      · exact Or.inr ⟨p.name, List.mem_cons_self, hfree, hindex⟩
    · exact Or.inr ⟨k, List.mem_cons_of_mem _ hk, hname, hki⟩

end

namespace LastByKeyword

variable {f : Function} {p : Parameter} {x : HostValue} {a a' : Arguments} {o o' : Vectorization}

theorem overrideKeys (h : LastByKeyword f p x a a' o o') : (o'.kwargs.map (·.1)).Perm
    (((o.args[a'.args.length]?).map fun _ ↦ p.name).toList ++ o.kwargs.map (·.1)) := by
  have hkeys := h.keyword.map Prod.fst
  rw [List.map_append] at hkeys
  cases hlast : o.args[a'.args.length]? <;> rw [hlast] at hkeys <;> exact hkeys

/-- The override of the last argument is suitable in either form. -/
theorem suits_iff (h : LastByKeyword f p x a a' o o') {ks : List String} (hnew : p.name ∉ ks) :
    o'.Suits a'.args.length (p.name :: ks) ↔ o.Suits (a'.args.length + 1) ks := by
  have hkeys := h.overrideKeys
  have hlen : (o.args.eraseIdx a'.args.length).length ≤ a'.args.length ↔
      o.args.length ≤ a'.args.length + 1 := by
    rw [List.length_eraseIdx]
    split <;> omega
  -- an override by the name of the parameter is the one of the last argument
  have hname : (o'.kwargs.map (·.1)).Nodup → p.name ∉ o.kwargs.map (·.1) := by
    intro hnodup hmem
    have hoverride := h.override
    cases hlast : o.args[a'.args.length]? with
    | some v =>
      rw [hlast] at hkeys
      exact (List.nodup_cons.mp (hkeys.nodup_iff.mp hnodup)).1 hmem
    | none =>
      rw [hlast, Override.entry?, Option.map_eq_none_iff, List.find?_eq_none] at hoverride
      obtain ⟨e, he, heq⟩ := List.mem_map.mp (hkeys.mem_iff.mpr (List.mem_append_right _ hmem))
      exact hoverride e he (beq_iff_eq.mpr heq)
  constructor
  · rintro ⟨hle, hnamed, honce⟩
    rw [h.positional, hlen] at hle
    refine ⟨hle, fun k hk ↦ ?_,
      (hkeys.nodup_iff.mp honce).sublist (List.sublist_append_right _ _)⟩
    rcases List.mem_cons.mp (hnamed k (hkeys.mem_iff.mpr (List.mem_append_right _ hk))) with
      rfl | hmem
    · exact absurd hk (hname honce)
    · exact hmem
  · rintro ⟨hle, hnamed, honce⟩
    refine ⟨by rwa [h.positional, hlen], fun k hk ↦ ?_, hkeys.nodup_iff.mpr ?_⟩
    · rcases List.mem_append.mp (hkeys.mem_iff.mp hk) with hlast | hk
      · obtain ⟨v, -, rfl⟩ := Option.map_eq_some_iff.mp (Option.mem_toList.mp hlast)
        exact List.mem_cons_self
      · exact List.mem_cons_of_mem _ (hnamed k hk)
    · cases o.args[a'.args.length]? with
      | none => exact honce
      | some v => exact List.nodup_cons.mpr ⟨fun hk ↦ hnew (hnamed _ hk), honce⟩

theorem admits_iff (h : LastByKeyword f p x a a' o o') (hf : f.Named) :
    f.Admits a' o' ↔ f.Admits a o := by
  have hlen : a.args.length = a'.args.length + 1 := by rw [h.args, List.length_append]; rfl
  have hkeys : a'.kwargs.map (·.1) = p.name :: a.kwargs.map (·.1) := by rw [h.kwargs]; rfl
  have hnew : f.Admits a' o' ∨ f.Admits a o → p.name ∉ a.kwargs.map (·.1) := by
    rintro (hadmits | hadmits) hmem
    · have honce := hadmits.once
      rw [hkeys] at honce
      exact (List.nodup_cons.mp honce).1 hmem
    · obtain ⟨i, hi, hle⟩ :=
        hadmits.accepts.named p.name hmem (hf.free p (List.mem_of_getElem? h.param))
      rw [hf.paramIndex? h.param] at hi
      cases hi
      exact absurd hle (by omega)
  constructor
  · intro hadmits
    have hnew := hnew (Or.inl hadmits)
    obtain ⟨honce, haccepts, hsuits⟩ := hadmits
    rw [hkeys] at honce haccepts hsuits
    refine ⟨(List.nodup_cons.mp honce).2, ?_, ?_⟩ <;> rw [hlen]
    · exact haccepts.of_cons hf h.param hnew
    · exact (h.suits_iff hnew).mp hsuits
  · intro hadmits
    have hnew := hnew (Or.inr hadmits)
    obtain ⟨honce, haccepts, hsuits⟩ := hadmits
    rw [hlen] at haccepts hsuits
    refine ⟨?_, ?_, ?_⟩ <;> rw [hkeys]
    · exact List.nodup_cons.mpr ⟨hnew, honce⟩
    · exact haccepts.cons hf h.param hnew
    · exact (h.suits_iff hnew).mpr hsuits

/-- The last argument has the same seat and the same override, and comes between the same others. -/
theorem passings (h : LastByKeyword f p x a a' o o') (hf : f.Named) (hadmits : f.Admits a' o') :
    Call.passings f a o = Call.passings f a' o' := by
  have honce := hadmits.once
  rw [h.kwargs, List.map_cons, List.nodup_cons] at honce
  have hseat := Function.seat?_of_paramIndex? (hf.free p (List.mem_of_getElem? h.param))
    (hf.paramIndex? h.param) h.param
  have hothers : ∀ e ∈ a.kwargs, Override.entry? o'.kwargs e.1 = Override.entry? o.kwargs e.1 := by
    intro e he
    have hkey : e.1 ∈ a.kwargs.map (·.1) := List.mem_map_of_mem he
    have hne : (p.name == e.1) = false := beq_eq_false_iff_ne.mpr fun heq ↦
      honce.1 (show p.name ∈ _ from heq ▸ hkey)
    rw [Override.entry?_perm h.keyword hadmits.suits.once]
    cases o.args[a'.args.length]? with
    | none => rfl
    | some v =>
      change Override.entry? ((p.name, v) :: o.kwargs) e.1 = _
      rw [Override.entry?, Override.entry?, List.find?_cons, hne]
  have hkeyword : keywordPassing f a'.kwargs o'.kwargs =
      ⟨⟨p.name, ⟨p.type, p.modifiers⟩, some a'.args.length⟩, x, o.args[a'.args.length]?⟩ ::
        keywordPassing f a.kwargs o.kwargs := by
    rw [h.kwargs, keywordPassing, List.filterMap_cons, hseat, Option.map_some, h.override,
      keywordPassing]
    refine congrArg (_ :: ·) (List.filterMap_congr fun e he ↦ ?_)
    rw [hothers e he]
  rw [Call.passings, Call.passings, h.args, positionalPassing_append h.param, h.positional,
    hkeyword, List.append_assoc, Nat.zero_add]
  rfl

end LastByKeyword

/-! ## Two builds -/

namespace Call

/-- **How arguments are passed does not change what they bind to.** Two builds that differ in the
order of keywords agree; so do two builds of which one passes the last positional argument as the
first keyword argument, and the code and the signature are then the same as well. -/
theorem build_order {f : Function} (hf : f.Named) (lookup : Lookup) (settings : Settings)
    (a a' : Arguments) (o o' : Vectorization) :
    (Reordered a a' o o' → Option.Rel (BuiltCall.Agree f) (build lookup settings f a o).toOption
      (build lookup settings f a' o').toOption) ∧
    ∀ p x, LastByKeyword f p x a a' o o' →
      Option.Rel (fun b b' ↦ b.Agree f b' ∧ b'.code = b.code ∧
        b'.call.signature = b.call.signature) (build lookup settings f a o).toOption
        (build lookup settings f a' o').toOption := by
  refine ⟨fun h ↦ rel_build (fun b hb ↦ ?_) fun b' hb' ↦ ?_, fun p x h ↦ rel_build
    (fun b hb ↦ ?_) fun b' hb' ↦ ?_⟩
  · exact exists_build_of_passings hf h.admits h.passings hb
  · obtain ⟨b, hb, -⟩ := exists_build_of_passings hf h.symm.admits h.symm.passings hb'
    exact ⟨b, hb⟩
  · have hpassings := h.passings hf ((h.admits_iff hf).mpr (names_of_build hb).1)
    obtain ⟨b', hb', hagree⟩ := exists_build_of_passings hf (h.admits_iff hf).mpr
      (fun _ ↦ hpassings ▸ List.Perm.refl _) hb
    exact ⟨b', hb', hagree, identical_of_passings hpassings hb hb' hagree⟩
  · obtain ⟨b, hb, -⟩ := exists_build_of_passings hf (h.admits_iff hf).mp
      (fun hadmits ↦ h.passings hf hadmits ▸ List.Perm.refl _) hb'
    exact ⟨b, hb⟩

/-- A kernel that moves from one number towards another. -/
def blend : Function where
  name := "blend"
  params := [
    { name := "start", type := .scalar .float },
    { name := "goal", type := .scalar .float },
    { name := "part", type := .scalar .float }]

/-- A grid of starts, and one of goals. -/
def blendArguments : Arguments where
  args := [.buffer { element := .scalar .float, extents := [8, 4] }]
  kwargs := [("goal", .buffer { element := .scalar .float, extents := [4, 8] }), ("part", .int 1)]

/-- Starts and goals are taken across each other. -/
def blendAcross : Vectorization where
  args := [.pin (.axes [1, 0])]

/-- The same can be passed with the keywords in another order, or by keywords alone. -/
theorem build_order_blend :
    (build ⟨.standard, .builtin⟩ {} blend blendArguments blendAcross).toOption.isSome ∧
    Option.Rel (BuiltCall.Agree blend)
      (build ⟨.standard, .builtin⟩ {} blend blendArguments blendAcross).toOption
      (build ⟨.standard, .builtin⟩ {} blend
        { blendArguments with kwargs := blendArguments.kwargs.reverse } blendAcross).toOption ∧
    Option.Rel (fun b b' ↦ b.Agree blend b' ∧ b'.code = b.code ∧
        b'.call.signature = b.call.signature)
      (build ⟨.standard, .builtin⟩ {} blend blendArguments blendAcross).toOption
      (build ⟨.standard, .builtin⟩ {} blend
        { kwargs := ("start", .buffer { element := .scalar .float, extents := [8, 4] }) ::
            blendArguments.kwargs }
        { kwargs := [("start", .pin (.axes [1, 0]))] }).toOption := by
  have hf : blend.Named := ⟨by decide, by decide⟩
  refine ⟨by decide +kernel, (build_order hf _ {} _ _ _ _).1 ?_, (build_order hf _ {} _ _ _ _).2
    { name := "start", type := .scalar .float }
    (.buffer { element := .scalar .float, extents := [8, 4] }) ?_⟩
  · exact ⟨rfl, (List.reverse_perm _).symm, rfl, List.Perm.refl _⟩
  · exact ⟨rfl, rfl, rfl, rfl, List.Perm.refl _, rfl⟩

end Call

end KernelCall
