import KernelCall.Proofs.Call.Passing
import KernelCall.Proofs.Call.Trampoline
import Mathlib.Data.List.Perm.Basic

/-!
# The order of roots

Whether a call can be settled and turned into code does not depend on the order of its roots. The
rank of the dispatch is a maximum over all leaves, roots are settled and turned into code one by
one, and the statement of the trampoline lists them by the places of their parameters.

The roots that stand for parameters fill each place once. Their places in increasing order are
therefore `0, 1, …`, and a root is named after the parameter in its place, so the statement can be
told from the function and the keywords alone (`Bound.statement_eq_callStatement`).
-/

namespace KernelCall

/-! ## Rearranged lists -/

section

variable {α β : Type}

/-- A treatment of all members of a list goes through in one order if it does in another, with the
results in that order. -/
theorem exists_mapM_of_perm {f : α → Option β} {xs ys : List α} {us : List β}
    (h : xs.Perm ys) (hus : xs.mapM f = some us) : ∃ vs, ys.mapM f = some vs ∧ us.Perm vs := by
  obtain ⟨vs, hvs, hperm⟩ := List.perm_comp_forall₂ h.symm (mapM_eq_some_iff.mp hus)
  exact ⟨vs, mapM_eq_some_iff.mpr hvs, hperm.symm⟩

theorem greatest_perm {ns ms : List Nat} (h : ns.Perm ms) : greatest ns = greatest ms :=
  Nat.le_antisymm (greatest_le_iff.mpr fun _ hn ↦ le_greatest (h.mem_iff.mp hn))
    (greatest_le_iff.mpr fun _ hn ↦ le_greatest (h.mem_iff.mpr hn))

/-- Where keys do not repeat, what a key finds does not depend on the order. -/
theorem find?_key_perm {key : α → String} {xs ys : List α} (h : xs.Perm ys)
    (hnodup : (xs.map key).Nodup) (k : String) :
    xs.find? (key · == k) = ys.find? (key · == k) := by
  induction h with
  | nil => rfl
  | cons x _ ih =>
    rw [List.find?_cons, List.find?_cons, ih (List.nodup_cons.mp hnodup).2]
  | swap x y xs =>
    -- at most one of the two is found
    have hne : key y ≠ key x := fun heq ↦ (List.nodup_cons.mp hnodup).1 (by simp [heq])
    rw [List.find?_cons, List.find?_cons, List.find?_cons, List.find?_cons]
    cases hx : key x == k with
    | false => rfl
    | true =>
      have hy : (key y == k) = false := by
        rw [← eq_of_beq hx]
        exact beq_eq_false_iff_ne.mpr hne
      rw [hy]
  | trans hxy _ ih ih' => exact (ih hnodup).trans (ih' ((hxy.map key).nodup_iff.mp hnodup))

end

theorem Override.entry?_perm {entries entries' : List (String × Override)}
    (h : entries.Perm entries') (hnodup : (entries.map (·.1)).Nodup) (key : String) :
    entry? entries key = entry? entries' key :=
  congrArg (Option.map Prod.snd) (find?_key_perm h hnodup key)

namespace Call

variable {f : Function} {c c' : Call} {gridRank : Nat}

/-! ## Roots in another order -/

theorem settledRank?_perm {lookup : Lookup} (h : c.roots.Perm c'.roots)
    (hrank : c.settledRank? lookup = some gridRank) :
    c'.settledRank? lookup = some gridRank := by
  obtain ⟨ns, hns, rfl⟩ := Option.map_eq_some_iff.mp hrank
  obtain ⟨ms, hms, hperm⟩ := exists_mapM_of_perm (h.flatMap_right Variable.leaves) hns
  rw [settledRank?, leaves, hms, Option.map_some, greatest_perm hperm]

theorem exists_mapM?_of_roots {g : Variable → Option Variable} {ws : List Variable}
    (h : c.roots.mapM g = some ws) : ∃ c', c.mapM? g = some c' ∧ c'.roots = ws := by
  obtain ⟨args, kwargs, hargs, hkwargs, rfl⟩ := exists_append_of_forall₂ (mapM_eq_some_iff.mp h)
  exact ⟨{ c with args, kwargs }, withVariables?_eq_some_iff.mpr
    ⟨mapM_eq_some_iff.mpr hargs, mapM_eq_some_iff.mpr hkwargs, rfl⟩, rfl⟩

theorem exists_emit_iff (hf : c.function? = some f) : (∃ m, c.emit gridRank = .ok m) ↔
    ∀ v ∈ c.roots,
      (∃ own, v.typeCommands gridRank true = .ok own) ∧ ∃ text, v.formal = .ok text := by
  constructor
  · rintro ⟨m, hm⟩ v hv
    obtain ⟨own, commands, hown, htrampoline, -⟩ := emit_eq_ok hm
    obtain ⟨formals, hformals, -⟩ := trampoline_eq_ok hf htrampoline
    obtain ⟨text, -, htext⟩ := exists_of_forall₂_left hformals hv
    obtain ⟨own, -, hown⟩ := exists_of_forall₂_left hown hv
    exact ⟨⟨own, hown⟩, text, htext⟩
  · intro h
    -- the module grows from root to root, but no root looks at what is in it
    have hfold : ∀ vs ⊆ c.roots, ∀ m,
        ∃ m', vs.foldlM (fun m v ↦ v.emit gridRank true m) m = .ok m' := by
      intro vs hvs
      induction vs with
      | nil => exact fun m ↦ ⟨m, rfl⟩
      | cons v vs ih =>
        rw [List.cons_subset] at hvs
        intro m
        obtain ⟨own, hown⟩ := (h v hvs.1).1
        rw [List.foldlM_cons, Variable.emit, hown]
        exact ih hvs.2 _
    obtain ⟨m, hm⟩ := hfold c.roots (List.Subset.refl _) {}
    have htrampoline : ∃ commands, c.trampoline = .ok commands := by
      obtain ⟨formals, hformals⟩ := exists_mapM_ok fun v hv ↦ (h v hv).2
      rw [trampoline, hf]
      exact ⟨_, bind_eq_ok_iff.mpr ⟨formals, hformals, rfl⟩⟩
    obtain ⟨commands, hcommands⟩ := htrampoline
    exact ⟨_, bind_eq_ok_iff.mpr ⟨m, hm, bind_eq_ok_iff.mpr ⟨commands, hcommands, rfl⟩⟩⟩

/-- The code of a call follows from its roots in order and the statement of its trampoline. -/
theorem emit_congr (hf : c.function? = some f) (hf' : c'.function? = some f)
    (hroots : c.roots = c'.roots) (hstatement : c.statement f = c'.statement f) :
    c.emit gridRank = c'.emit gridRank := by
  simp only [emit, trampoline, hf, hf', hroots, hstatement]

end Call

/-! ## Names and places -/

/-- The parameters of a function can be told by their names, which are not reserved. -/
structure Function.Named (f : Function) : Prop where
  distinct : (f.params.map (·.name)).Nodup
  free : ∀ p ∈ f.params, isReserved p.name = false

theorem Function.Named.paramIndex? {f : Function} (hf : f.Named) {i : Nat} {p : Parameter}
    (hp : f.params[i]? = some p) : f.paramIndex? p.name = some i := by
  obtain ⟨hi, rfl⟩ := List.getElem?_eq_some_iff.mp hp
  refine List.findIdx?_eq_some_iff_getElem.mpr ⟨hi, beq_self_eq_true _, fun j hj heq ↦ ?_⟩
  have hj' : j < f.params.length := Nat.lt_trans hj hi
  have hne :=
    List.pairwise_iff_getElem.mp hf.distinct j i (by simpa using hj') (by simpa using hi) hj
  rw [List.getElem_map, List.getElem_map] at hne
  exact hne (eq_of_beq heq)

/-- The statement that calls a function with each of its parameters by name, on the receiver and for
the result if these are among the keywords. -/
def Function.callStatement (f : Function) (keywords : List String) : String :=
  (if resultKeyword ∈ keywords then resultKeyword ++ " = " else "") ++
    (if receiverKeyword ∈ keywords then receiverKeyword ++ "." else "") ++
      f.name ++ "(" ++ ", ".intercalate (f.params.map (·.name)) ++ ")"

namespace Call

variable {f : Function} {c c' : Call}

theorem Bound.index_args (h : c.Bound f) :
    c.args.map (·.node.paramIndex?) = (List.range c.args.length).map some := by
  refine List.ext_getElem? fun i ↦ ?_
  rw [List.getElem?_map, List.getElem?_map]
  cases hv : c.args[i]? with
  | none =>
    rw [List.getElem?_eq_none_iff] at hv
    rw [List.getElem?_eq_none (by simpa using hv)]
    rfl
  | some v =>
    obtain ⟨hi, -⟩ := List.getElem?_eq_some_iff.mp hv
    obtain ⟨p, -, hseat⟩ := h.positional i v hv
    rw [List.getElem?_range hi, Option.map_some, Option.map_some, hseat.2.1]

theorem Bound.paramIndex?_keyword (h : c.Bound f) {v : Variable} (hv : v ∈ c.kwargs)
    (hname : isReserved v.name = false) : v.node.paramIndex? = f.paramIndex? v.name := by
  obtain ⟨target, index?, hseat, hseated⟩ := h.keyword v hv
  exact hseated.2.1.trans (Function.paramIndex?_of_seat? hname hseat)

/-- Only keywords are reserved. -/
theorem Bound.not_isReserved_args (h : c.Bound f)
    (hfree : ∀ p ∈ f.params, isReserved p.name = false) {v : Variable} (hv : v ∈ c.args) :
    isReserved v.name = false := by
  obtain ⟨i, hi⟩ := List.mem_iff_getElem?.mp hv
  obtain ⟨p, hp, hseat⟩ := h.positional i v hi
  rw [hseat.1]
  exact hfree p (List.mem_of_getElem? hp)

theorem Bound.perm_places (h : c.Bound f) (hfree : ∀ p ∈ f.params, isReserved p.name = false) :
    ((c.roots.filter (!isReserved ·.name)).map (·.node.paramIndex?)).Perm
      ((List.range f.params.length).map some) := by
  have hargs : c.args.filter (!isReserved ·.name) = c.args :=
    List.filter_eq_self.mpr fun v hv ↦ by rw [h.not_isReserved_args hfree hv, Bool.not_false]
  rw [roots, List.filter_append, hargs]
  exact Call.perm_places (checkArity_eq_ok_iff.mp h.arity) h.index_args
    fun v hv ↦ h.paramIndex?_keyword hv

theorem Bound.mem_kwargs_iff (h : c.Bound f)
    (hfree : ∀ p ∈ f.params, isReserved p.name = false) {name : String} (hname : isReserved name) :
    name ∈ c.kwargs.map (·.name) ↔ name ∈ c.roots.map (·.name) := by
  rw [roots, List.map_append, List.mem_append, or_iff_right]
  intro hmem
  obtain ⟨v, hv, rfl⟩ := List.mem_map.mp hmem
  rw [h.not_isReserved_args hfree hv] at hname
  cases hname

/-! ## Statements -/

/-- The place of a variable in the order of parameters. -/
def orderKey (v : Variable) : Nat := v.node.paramIndex?.elim 0 (· + 1)

theorem paramOrder_iff {v w : Variable} : paramOrder v w ↔ orderKey v ≤ orderKey w := by
  rw [paramOrder, orderKey, orderKey]
  cases v.node.paramIndex? <;> cases w.node.paramIndex? <;> simp

theorem pairwise_actuals (c : Call) : c.actuals.Pairwise (paramOrder · ·) := by
  refine List.pairwise_mergeSort (fun u v w huv hvw ↦ ?_) (fun v w ↦ ?_) _
  · rw [paramOrder_iff] at huv hvw ⊢
    exact Nat.le_trans huv hvw
  · rw [Bool.or_eq_true, paramOrder_iff, paramOrder_iff]
    exact Nat.le_total _ _

/-- In the order of the statement, the places of the roots are those of the parameters in order. -/
theorem Bound.orderKeys_actuals (h : c.Bound f)
    (hfree : ∀ p ∈ f.params, isReserved p.name = false) :
    c.actuals.map orderKey = (List.range f.params.length).map (· + 1) := by
  have hperm : (c.actuals.map orderKey).Perm ((List.range f.params.length).map (· + 1)) := by
    have hplaces := ((c.actuals_perm.map (·.node.paramIndex?)).trans (h.perm_places hfree)).map
      fun index? : Option Nat ↦ index?.elim 0 (· + 1)
    rw [List.map_map, List.map_map] at hplaces
    exact hplaces
  have hsorted : (c.actuals.map orderKey).Pairwise (· ≤ ·) :=
    List.pairwise_map.mpr ((pairwise_actuals _).imp paramOrder_iff.mp)
  have hrange : ((List.range f.params.length).map (· + 1)).Pairwise (· ≤ ·) :=
    List.pairwise_map.mpr (List.pairwise_le_range.imp Nat.succ_le_succ)
  -- one arrangement of them is increasing
  exact List.Perm.eq_of_pairwise (fun _ _ _ _ ↦ Nat.le_antisymm) hsorted hrange hperm

/-- So the root that the statement passes on in a place stands for the parameter in that place. -/
theorem Bound.paramIndex?_actuals (h : c.Bound f)
    (hfree : ∀ p ∈ f.params, isReserved p.name = false) {i : Nat} {v : Variable}
    (hv : c.actuals[i]? = some v) : v.node.paramIndex? = some i := by
  have hget : (c.actuals.map orderKey)[i]? = some (orderKey v) := by
    rw [List.getElem?_map, hv, Option.map_some]
  have hkey : orderKey v = i + 1 := by
    rw [h.orderKeys_actuals hfree, List.getElem?_map, Option.map_eq_some_iff] at hget
    obtain ⟨j, hj, hkey⟩ := hget
    obtain ⟨_, rfl⟩ := List.getElem?_eq_some_iff.mp hj
    rw [← hkey, List.getElem_range]
  rw [orderKey] at hkey
  cases hindex : v.node.paramIndex? with
  | none =>
    -- the key `0` is that of a root that stands for no parameter
    simp [hindex] at hkey
  | some j => simpa [hindex] using hkey

theorem Bound.exists_param (h : c.Bound f) {v : Variable} (hv : v ∈ c.roots)
    (hname : isReserved v.name = false) {i : Nat} (hi : v.node.paramIndex? = some i) :
    ∃ p, f.params[i]? = some p ∧ p.name = v.name := by
  rcases List.mem_append.mp hv with hv | hv
  · obtain ⟨j, hj⟩ := List.mem_iff_getElem?.mp hv
    obtain ⟨p, hp, hseat⟩ := h.positional j v hj
    obtain rfl : i = j := by simpa [hi] using hseat.2.1
    exact ⟨p, hp, hseat.1.symm⟩
  · rw [h.paramIndex?_keyword hv hname] at hi
    have hp := List.getElem?_eq_getElem (Function.lt_of_paramIndex? hi)
    exact ⟨_, hp, Function.name_of_paramIndex? hi hp⟩

/-- **Parameters in order.** The statement passes on every parameter once, in the order of their
declaration. -/
theorem Bound.names_actuals (h : c.Bound f) (hfree : ∀ p ∈ f.params, isReserved p.name = false) :
    c.actuals.map (·.name) = f.params.map (·.name) := by
  have hlength : c.actuals.length = f.params.length := by
    simpa using congrArg List.length (h.orderKeys_actuals hfree)
  apply map_eq_of_forall₂
  rw [forall₂_iff_getElem? hlength]
  intro i v p hv hp
  obtain ⟨hroot, hname⟩ :=
    List.mem_filter.mp (c.actuals_perm.mem_iff.mp (List.mem_of_getElem? hv))
  obtain ⟨q, hq, hqname⟩ := h.exists_param hroot (by simpa using hname)
    (h.paramIndex?_actuals hfree hv)
  obtain rfl : q = p := Option.some.inj (hq.symm.trans hp)
  exact hqname.symm

/-- **The statement of a bound call** is the same for all ways of passing the arguments. -/
theorem Bound.statement_eq_callStatement (h : c.Bound f)
    (hfree : ∀ p ∈ f.params, isReserved p.name = false) :
    c.statement f = f.callStatement (c.kwargs.map (·.name)) := by
  rw [statement_eq_elim, h.names_actuals hfree, map_name_kwarg?, map_name_kwarg?,
    Function.callStatement]
  congr 5 <;> split <;> rfl

/-- **One statement for every order.** -/
theorem Bound.statement_perm (h : c.Bound f) (h' : c'.Bound f) (hf : f.Named)
    (hroots : c.roots.Perm c'.roots) : c.statement f = c'.statement f := by
  have hmem : ∀ name, isReserved name →
      (name ∈ c.kwargs.map (·.name) ↔ name ∈ c'.kwargs.map (·.name)) := by
    intro name hname
    rw [h.mem_kwargs_iff hf.free hname, h'.mem_kwargs_iff hf.free hname]
    exact (hroots.map _).mem_iff
  rw [h.statement_eq_callStatement hf.free, h'.statement_eq_callStatement hf.free]
  simp only [Function.callStatement, hmem resultKeyword rfl, hmem receiverKeyword rfl]

end Call

end KernelCall
