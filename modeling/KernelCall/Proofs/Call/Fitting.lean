import KernelCall.Proofs.Call.Arity
import KernelCall.Proofs.Call.Errors

/-!
# Which calls bind

Binding goes through if the function accepts the arguments and every key of a dictionary is a field
of the struct that is reached by it. The second condition does not depend on the first, nor on what
other variables are bound to: what a root is bound to follows from its place or its keyword, and
what is below it from the keys on the way. So all keys at fault are known in advance, `strays`, and
the error of a binding is that of the first of them.
-/

namespace KernelCall

namespace Variable

/-! ## Keys without a field -/

mutual

/-- Every key is a field of the type that is reached by the keys before it. -/
def Fits (type : KernelType) : Variable → Prop
  | leaf _ => True
  | dict _ fs => FieldsFit type fs

def FieldsFit (type : KernelType) : List Variable → Prop
  | [] => True
  | v :: vs => (∃ t, type.field? v.name = some t ∧ Fits t v) ∧ FieldsFit type vs

end

/-- A key that is no field: the path of its variable, the type that is reached, and the key. -/
structure Stray where
  path : String
  type : KernelType
  key : String

/-- The error of a key that is no field. -/
def Stray.error (s : Stray) : BindError := (Fault.noField s.type s.key).blame s.path

mutual

/-- The keys of a variable that are no fields, in the order of the tree. What is below such a key is
not bound to anything and not looked at. -/
def strays (path : String) (type : KernelType) : Variable → List Stray
  | leaf _ => []
  | dict _ fs => fieldStrays path type fs

def fieldStrays (path : String) (type : KernelType) : List Variable → List Stray
  | [] => []
  | v :: vs =>
    (match type.field? v.name with
      | none => [⟨subpath path v.name, type, v.name⟩]
      | some t => strays (subpath path v.name) t v) ++ fieldStrays path type vs

end

theorem strays_eq_nil_iff {path : String} {type : KernelType} {v : Variable} :
    v.strays path type = [] ↔ v.Fits type := by
  induction v generalizing path type with
  | leaf n => simp [strays, Fits]
  | dict n fs ih =>
    rw [strays, Fits]
    clear n
    induction fs with
    | nil => simp [fieldStrays, FieldsFit]
    | cons v vs ihs =>
      rw [List.forall_mem_cons] at ih
      rw [fieldStrays, FieldsFit, List.append_eq_nil_iff, ihs ih.2]
      refine and_congr_left' ?_
      cases type.field? v.name with
      | none => simp
      | some t => simp [ih.1]

theorem error?_bindTo (path : String) (target : Target) (v : Variable) :
    (v.bindTo path target).error? = (v.strays path target.type).head?.map Stray.error := by
  induction v generalizing path target with
  | leaf n => rfl
  | dict n fs ih =>
    have hfields : (bindFields path target fs).error? =
        (fieldStrays path target.type fs).head?.map Stray.error := by
      clear n
      induction fs with
      | nil => rfl
      | cons v vs ihs =>
        rw [List.forall_mem_cons] at ih
        rw [bindFields, fieldStrays, List.head?_append, Option.map_or]
        cases target.type.field? v.name with
        | none => rfl
        | some t => rw [Progress.error?_andThen, Progress.error?_map, ihs ih.2, ih.1]
    rw [bindTo, Progress.error?_andThen, strays, hfields, Progress.error?_done, Option.or_none]

/-! ## Roots -/

theorem strays_mapNode (g : Node → Node) (path : String) (type : KernelType) (v : Variable) :
    (v.mapNode g).strays path type = v.strays path type := by
  cases v <;> rfl

theorem error?_bindRoot (v : Variable) (name : String) (target : Target) (index? : Option Nat) :
    (v.bindRoot name target index?).error? =
      (v.strays (v.rootName name) target.type).head?.map Stray.error := by
  rw [bindRoot, error?_bindTo, strays_mapNode, rootName]

end Variable

/-! ## Seating -/

/-- What a root is bound to, and under which name: a parameter, the receiver or the returned
value. -/
structure Seat where
  name : String
  target : Target
  index? : Option Nat

/-- Binds a root to its seat. -/
def Seat.bind (s : Seat) (v : Variable) : Progress Variable := v.bindRoot s.name s.target s.index?

/-- The root is bound to the seat. -/
def Seat.Holds (s : Seat) (v w : Variable) : Prop :=
  w.Seated (v.rootName s.name) s.target s.index? ∧ v.Related Node.Rebound w

namespace Call

/-- Positional variables with their seats, which are the parameters from position `index` on. -/
def positionalSeating (index : Nat) (vs : List Variable) (ps : List Parameter) :
    List (Variable × Seat) :=
  ((vs.zip ps).zipIdx index).map fun ((v, p), i) ↦ (v, ⟨p.name, ⟨p.type, p.modifiers⟩, some i⟩)

/-- Keyword variables with the seats that their keywords name. -/
def keywordSeating (f : Function) (vs : List Variable) : List (Variable × Seat) :=
  vs.filterMap fun v ↦ (f.seat? v.name).map fun (target, index?) ↦ (v, ⟨v.name, target, index?⟩)

/-- The roots of a call with their seats. It depends on names and places only. -/
def seating (f : Function) (c : Call) : List (Variable × Seat) :=
  positionalSeating 0 c.args f.params ++ keywordSeating f c.kwargs

/-- Every key of a dictionary is a field of the struct that is reached by it. -/
def Fits (f : Function) (c : Call) : Prop := ∀ vs ∈ c.seating f, vs.1.Fits vs.2.target.type

/-- The keys of a call that are no fields, in order. -/
def strays (f : Function) (c : Call) : List Variable.Stray :=
  (c.seating f).flatMap fun vs ↦ vs.1.strays (vs.1.rootName vs.2.name) vs.2.target.type

variable {f : Function} {c c' : Call}

theorem strays_eq_nil_iff : c.strays f = [] ↔ c.Fits f := by
  rw [strays, List.flatMap_eq_nil_iff, Fits]
  exact forall₂_congr fun vs _ ↦ Variable.strays_eq_nil_iff

theorem positionalSeating_cons (index : Nat) (v : Variable) (vs : List Variable) (p : Parameter)
    (ps : List Parameter) : positionalSeating index (v :: vs) (p :: ps) =
      (v, ⟨p.name, ⟨p.type, p.modifiers⟩, some index⟩) :: positionalSeating (index + 1) vs ps := rfl

theorem length_positionalSeating {index : Nat} {vs : List Variable} {ps : List Parameter}
    (hlen : vs.length ≤ ps.length) : (positionalSeating index vs ps).length = vs.length := by
  rw [positionalSeating, List.length_map, List.length_zipIdx, List.length_zip, Nat.min_eq_left hlen]

theorem keywordSeating_cons {v : Variable} {ti : Target × Option Nat}
    (h : f.seat? v.name = some ti) (vs : List Variable) :
    keywordSeating f (v :: vs) = (v, ⟨v.name, ti.1, ti.2⟩) :: keywordSeating f vs := by
  simp [keywordSeating, h]

theorem keywordSeating_cons_of_none {v : Variable} (h : f.seat? v.name = none)
    (vs : List Variable) : keywordSeating f (v :: vs) = keywordSeating f vs := by
  simp [keywordSeating, h]

/-- A keyword variable is bound to its seat. -/
theorem bindKeyword_eq (f : Function) (v : Variable) : bindKeyword f v =
    match f.seat? v.name with
    | some (target, index?) => Seat.bind ⟨v.name, target, index?⟩ v
    | none => .done v := by
  rw [bindKeyword, Function.seat?]
  by_cases hreceiver : v.name = receiverKeyword
  · rw [if_pos (beq_iff_eq.mpr hreceiver), if_pos (beq_iff_eq.mpr hreceiver), ← hreceiver]
    cases f.receiverType <;> rfl
  have hreceiver := beq_eq_false_iff_ne.mpr hreceiver
  by_cases hresult : v.name = resultKeyword
  · rw [hreceiver, if_neg Bool.false_ne_true, if_neg Bool.false_ne_true,
      if_pos (beq_iff_eq.mpr hresult), if_pos (beq_iff_eq.mpr hresult), ← hresult]
    cases f.returnType <;> rfl
  have hresult := beq_eq_false_iff_ne.mpr hresult
  simp only [hreceiver, hresult, Bool.false_eq_true, if_false]
  cases hparam : f.param? v.name with
  | none => rfl
  | some ip => simp only [Option.map_some, (Function.name_of_param? hparam).1, Seat.bind]

/-! ## The error of a binding -/

theorem error?_bind_seat (s : Seat) (v : Variable) : (s.bind v).error? =
    (v.strays (v.rootName s.name) s.target.type).head?.map Variable.Stray.error :=
  Variable.error?_bindRoot v s.name s.target s.index?

theorem error?_bindPositional (index : Nat) (vs : List Variable) (ps : List Parameter) :
    (bindPositional index vs ps).error? =
      (positionalSeating index vs ps).findSome? fun vs ↦ (vs.2.bind vs.1).error? := by
  induction vs generalizing index ps with
  | nil => cases ps <;> rfl
  | cons v vs ih =>
    cases ps with
    | nil => rfl
    | cons p ps =>
      rw [bindPositional, Progress.error?_andThen, Progress.error?_map, ih, positionalSeating_cons,
        List.findSome?_cons]
      simp only [Seat.bind]
      cases (v.bindRoot p.name ⟨p.type, p.modifiers⟩ (some index)).error? <;> rfl

theorem error?_bindKeywords (f : Function) (vs : List Variable) :
    (Progress.traverse (bindKeyword f) vs).error? =
      (keywordSeating f vs).findSome? fun vs ↦ (vs.2.bind vs.1).error? := by
  rw [Progress.error?_traverse]
  induction vs with
  | nil => rfl
  | cons v vs ih =>
    rw [List.findSome?_cons, ih, bindKeyword_eq]
    cases hseat : f.seat? v.name with
    | none => rw [keywordSeating_cons_of_none hseat]; rfl
    | some ti => rw [keywordSeating_cons hseat, List.findSome?_cons]

/-- Once the arguments are accepted, the error of a binding is that of the first stray key. -/
theorem error?_bind (h : c.checkArity f = .ok ()) :
    (c.bind f).error? = (c.strays f).head?.map Variable.Stray.error := by
  have hseats : (c.bind f).error? = (c.seating f).findSome? fun vs ↦ (vs.2.bind vs.1).error? := by
    rw [bind, h, seating, List.findSome?_append, ← error?_bindPositional, ← error?_bindKeywords]
    simp only [Progress.error?_andThen, Progress.error?_done, Option.or_none]
  rw [hseats, strays, List.head?_flatMap, List.map_findSome?]
  simp only [error?_bind_seat, Function.comp_def]

/-- A binding that stops on the way does not say that the call is bound. -/
theorem function?_of_bind_error {e : BindError} (h : (c.bind f).error? = some e) :
    (c.bind f).state.function? = c.function? := by
  rw [bind] at h ⊢
  cases harity : c.checkArity f with
  | error e' => rfl
  | ok u =>
    rw [harity] at h
    simp only [Progress.andThen] at h ⊢
    cases hargs : (bindPositional 0 c.args f.params).error? with
    | some e' => rfl
    | none =>
      cases hkwargs : (Progress.traverse (bindKeyword f) c.kwargs).error? with
      | some e' => rfl
      | none => simp [hargs, hkwargs] at h

/-! ## What binding leaves -/

theorem result?_bindPositional {index : Nat} {vs : List Variable} {ps : List Parameter}
    (hlen : vs.length ≤ ps.length) : (bindPositional index vs ps).result? =
      (positionalSeating index vs ps).mapM fun vs ↦ (vs.2.bind vs.1).result? := by
  induction vs generalizing index ps with
  | nil => cases ps <;> rfl
  | cons v vs ih =>
    cases ps with
    | nil => cases hlen
    | cons p ps =>
      rw [bindPositional, Progress.result?_andThen, positionalSeating_cons, option_mapM_cons]
      simp only [Seat.bind, Progress.result?_map, ih (Nat.le_of_succ_le_succ hlen)]

theorem result?_bindKeywords {vs : List Variable} (hseats : ∀ v ∈ vs, (f.seat? v.name).isSome) :
    (Progress.traverse (bindKeyword f) vs).result? =
      (keywordSeating f vs).mapM fun vs ↦ (vs.2.bind vs.1).result? := by
  rw [Progress.result?_traverse]
  induction vs with
  | nil => rfl
  | cons v vs ih =>
    rw [List.forall_mem_cons] at hseats
    obtain ⟨ti, hseat⟩ := Option.isSome_iff_exists.mp hseats.1
    rw [option_mapM_cons, ih hseats.2, keywordSeating_cons hseat, option_mapM_cons, bindKeyword_eq,
      hseat]

/-- A binding goes through if the arity is right and every root can be bound to its seat. -/
theorem bind_eq_some_iff : (c.bind f).result? = some c' ↔ c.checkArity f = .ok () ∧
    ((positionalSeating 0 c.args f.params).mapM fun vs ↦ (vs.2.bind vs.1).result?) = some c'.args ∧
    ((keywordSeating f c.kwargs).mapM fun vs ↦ (vs.2.bind vs.1).result?) = some c'.kwargs ∧
    c'.function? = some f := by
  rw [bind]
  cases harity : c.checkArity f with
  | error e => simp [Progress.result?, Progress.stopped, Progress.toExcept, Except.toOption]
  | ok u =>
    simp only [Progress.result?_andThen, Progress.result?_done, true_and,
      result?_bindPositional (checkArity_eq_ok_iff.mp harity).positional_le,
      result?_bindKeywords (seats_of_checkArity harity).2]
    constructor
    · intro h
      obtain ⟨args, hargs, h⟩ := Option.bind_eq_some_iff.mp h
      obtain ⟨kwargs, hkwargs, h⟩ := Option.bind_eq_some_iff.mp h
      cases h
      exact ⟨hargs, hkwargs, rfl⟩
    · rintro ⟨hargs, hkwargs, hf⟩
      rw [hargs, Option.bind_some, hkwargs, Option.bind_some, ← hf]

/-- **What binding makes of a call.** Every root is in its seat, and whatever is below it is bound
with it; nothing else changes. -/
structure BindsTo (f : Function) (c c' : Call) : Prop where
  function : c'.function? = some f
  positional : List.Forall₂ (fun vs w ↦ vs.2.Holds vs.1 w) (positionalSeating 0 c.args f.params)
    c'.args
  keyword : List.Forall₂ (fun vs w ↦ vs.2.Holds vs.1 w) (keywordSeating f c.kwargs) c'.kwargs

theorem bindsTo_of_bind (h : (c.bind f).result? = some c') : BindsTo f c c' := by
  obtain ⟨-, hargs, hkwargs, hf⟩ := bind_eq_some_iff.mp h
  exact ⟨hf, (mapM_eq_some_iff.mp hargs).imp fun _ _ ↦ Variable.seated_rootName,
    (mapM_eq_some_iff.mp hkwargs).imp fun _ _ ↦ Variable.seated_rootName⟩

theorem index?_positionalSeating {index : Nat} {vs : List Variable} {ps : List Parameter}
    (hlen : vs.length ≤ ps.length) :
    (positionalSeating index vs ps).map (·.2.index?) = (List.range' index vs.length).map some := by
  have hrange : ((vs.zip ps).zipIdx index).map Prod.snd = List.range' index vs.length := by
    rw [List.zipIdx_map_snd, List.length_zip, Nat.min_eq_left hlen]
  rw [← hrange, positionalSeating, List.map_map, List.map_map]
  rfl

theorem mem_keywordSeating_iff {vs : List Variable} {v : Variable} {s : Seat} :
    (v, s) ∈ keywordSeating f vs ↔
      v ∈ vs ∧ s.name = v.name ∧ f.seat? v.name = some (s.target, s.index?) := by
  rw [keywordSeating, List.mem_filterMap]
  constructor
  · rintro ⟨u, hu, h⟩
    obtain ⟨⟨target, index?⟩, hseat, heq⟩ := Option.map_eq_some_iff.mp h
    cases heq
    exact ⟨hu, rfl, hseat⟩
  · rintro ⟨hv, hname, hseat⟩
    exact ⟨v, hv, by rw [hseat, Option.map_some, ← hname]⟩

/-- Nobody is left standing: keyword variables that have seats are all seated, in order. -/
theorem fst_keywordSeating {vs : List Variable} (h : ∀ v ∈ vs, (f.seat? v.name).isSome) :
    (keywordSeating f vs).map (·.1) = vs := by
  induction vs with
  | nil => rfl
  | cons v vs ih =>
    rw [List.forall_mem_cons] at h
    obtain ⟨ti, hseat⟩ := Option.isSome_iff_exists.mp h.1
    rw [keywordSeating_cons hseat, List.map_cons, ih h.2]

theorem BindsTo.names (h : BindsTo f c c') (hseats : ∀ v ∈ c.kwargs, (f.seat? v.name).isSome) :
    c'.kwargs.map (·.name) = c.kwargs.map (·.name) := by
  have hkeys : (keywordSeating f c.kwargs).map (·.1.name) = c'.kwargs.map (·.name) :=
    map_eq_of_forall₂ (forall₂_of_mem h.keyword fun ⟨v, s⟩ hvs w _ hw ↦ by
      rw [hw.1.1, (mem_keywordSeating_iff.mp hvs).2.1, Variable.rootName_self])
  rw [← hkeys, ← fst_keywordSeating hseats, List.map_map, fst_keywordSeating hseats]
  rfl

theorem BindsTo.paramIndex?_keyword (h : BindsTo f c c') {w : Variable} (hw : w ∈ c'.kwargs)
    (hname : isReserved w.name = false) : w.node.paramIndex? = f.paramIndex? w.name := by
  obtain ⟨⟨v, s⟩, hvs, hholds, -⟩ := exists_of_forall₂_right h.keyword hw
  obtain ⟨-, hsname, hseat⟩ := mem_keywordSeating_iff.mp hvs
  have hv : w.name = v.name := by rw [hholds.1, hsname, Variable.rootName_self]
  rw [← hv] at hseat
  exact hholds.2.1.trans (Function.paramIndex?_of_seat? hname hseat)

/-- The variables that stand for parameters fill each place once. -/
theorem BindsTo.perm_places (h : BindsTo f c c') (harity : c.checkArity f = .ok ()) :
    ((c'.args ++ c'.kwargs.filter (!isReserved ·.name)).map (·.node.paramIndex?)).Perm
      ((List.range f.params.length).map some) := by
  have haccepts := checkArity_eq_ok_iff.mp harity
  have hlen : c'.args.length = c.args.length := by
    rw [← h.positional.length_eq, length_positionalSeating haccepts.positional_le]
  have hindex : (positionalSeating 0 c.args f.params).map (·.2.index?) =
      c'.args.map (·.node.paramIndex?) :=
    map_eq_of_forall₂ (h.positional.imp fun _ _ hw ↦ hw.1.2.1.symm)
  rw [index?_positionalSeating haccepts.positional_le] at hindex
  rw [← h.names (seats_of_checkArity harity).2, ← hlen] at haccepts
  refine Call.perm_places haccepts ?_ fun w hw ↦ h.paramIndex?_keyword hw
  rw [← hindex, List.range_eq_range', hlen]

/-- **Which calls bind, and what becomes of the others.** A call binds if its arguments are accepted
and its keys are fields, and only then; every variable is then in its seat, and each parameter has
one variable. A call whose arguments are not accepted is left as it is. Of stray keys the first one
is reported, and the call does not count as bound. -/
theorem bind_iff (f : Function) (c : Call) :
    ((∃ c', c.bind f = .done c') ↔
      f.Accepts c.args.length (c.kwargs.map (·.name)) ∧ c.Fits f) ∧
    (∀ c', c.bind f = .done c' → BindsTo f c c' ∧ c'.arity = f.params.length ∧
      ((c'.args ++ c'.kwargs.filter (!isReserved ·.name)).map (·.node.paramIndex?)).Perm
        ((List.range f.params.length).map some)) ∧
    (¬ f.Accepts c.args.length (c.kwargs.map (·.name)) →
      ∃ e, c.bind f = .stopped c e ∧ e.kind = .bindingLookup) ∧
    (f.Accepts c.args.length (c.kwargs.map (·.name)) → ¬ c.Fits f →
      ∃ s, (c.strays f).head? = some s ∧ s.error.kind = .bindingLookup ∧ s.error.path = s.path ∧
        (c.bind f).error? = some s.error ∧ (c.bind f).state.function? = c.function?) := by
  simp only [Progress.eq_done_iff, ← checkArity_eq_ok_iff]
  refine ⟨⟨fun ⟨c', h⟩ ↦ ?_, fun ⟨harity, hfits⟩ ↦ ?_⟩, fun c' h ↦ ?_, fun h ↦ ?_,
    fun harity h ↦ ?_⟩
  · have harity := (bind_eq_some_iff.mp h).1
    refine ⟨harity, strays_eq_nil_iff.mp (List.head?_eq_none_iff.mp ?_)⟩
    rw [← Option.map_eq_none_iff, ← error?_bind harity]
    exact Progress.error?_of_result? h
  · refine ⟨_, Progress.result?_of_error? ?_⟩
    rw [error?_bind harity, strays_eq_nil_iff.mpr hfits]
    rfl
  · have harity := (bind_eq_some_iff.mp h).1
    have hbinds := bindsTo_of_bind h
    have hperm := hbinds.perm_places harity
    refine ⟨hbinds, ?_, hperm⟩
    have hlen := hperm.length_eq
    rw [List.length_map, List.length_append, List.length_map, List.length_range] at hlen
    rw [arity, keywordArity, List.countP_eq_length_filter, hlen]
  · rw [bind]
    cases harity : c.checkArity f with
    | error e => exact ⟨e, rfl, by simpa using raises_checkArity c f e harity⟩
    | ok u => exact absurd harity h
  · rw [← strays_eq_nil_iff] at h
    obtain ⟨s, hs⟩ := Option.isSome_iff_exists.mp (List.isSome_head?.mpr h)
    have herror : (c.bind f).error? = some s.error := by
      rw [error?_bind harity, hs, Option.map_some]
    exact ⟨s, hs, rfl, rfl, herror, function?_of_bind_error herror⟩

end Call

end KernelCall
