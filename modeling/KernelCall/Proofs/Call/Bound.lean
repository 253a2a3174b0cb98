import KernelCall.Call.Bind
import KernelCall.Proofs.Call.Arguments
import KernelCall.Proofs.Variable.Related

/-!
# Bound calls

What is known of a call between binding and overriding. Every node is as fresh as the value it was
made for, apart from what it is bound to; keywords do not repeat; and each root is bound to its seat,
which is a parameter, the receiver or the returned value. A dictionary's fields are bound to the
fields of its type and inherit its modifiers, so what a root is bound to settles what all nodes below
it are bound to.
-/

namespace KernelCall

/-- Binding changes what a node is bound to, and nothing that is known of its value. -/
def Node.Rebound (n m : Node) : Prop :=
  ∃ name path target? paramIndex?, m = { n with name, path, target?, paramIndex? }

theorem Node.Rebound.refl (n : Node) : n.Rebound n :=
  ⟨n.name, n.path, n.target?, n.paramIndex?, rfl⟩

theorem Node.Rebound.trans {n m k : Node} (h : n.Rebound m) (h' : m.Rebound k) : n.Rebound k := by
  obtain ⟨_, _, _, _, rfl⟩ := h
  obtain ⟨name, path, target?, paramIndex?, rfl⟩ := h'
  exact ⟨name, path, target?, paramIndex?, rfl⟩

theorem Node.Rebound.undecided {n m : Node} (h : n.Rebound m) (hn : n.Undecided) :
    m.Undecided := by
  obtain ⟨name, path, target?, paramIndex?, rfl⟩ := h
  exact hn

/-- Below the name of a root, binding decides on paths and targets alone. -/
def Node.Retargeted (n m : Node) : Prop := ∃ path target?, m = { n with path, target? }

theorem Node.Retargeted.refl (n : Node) : n.Retargeted n := ⟨n.path, n.target?, rfl⟩

theorem Node.Retargeted.trans {n m k : Node} (h : n.Retargeted m) (h' : m.Retargeted k) :
    n.Retargeted k := by
  obtain ⟨_, _, rfl⟩ := h
  obtain ⟨path, target?, rfl⟩ := h'
  exact ⟨path, target?, rfl⟩

theorem Node.Retargeted.name {n m : Node} (h : n.Retargeted m) : m.name = n.name := by
  obtain ⟨_, _, rfl⟩ := h
  rfl

theorem Node.Retargeted.rebound {n m : Node} (h : n.Retargeted m) : n.Rebound m := by
  obtain ⟨path, target?, rfl⟩ := h
  exact ⟨n.name, path, target?, n.paramIndex?, rfl⟩

namespace Variable

mutual

/-- The variable is bound to a target and reached by a path, and its fields are bound to the fields
of the target. -/
def BoundTo (path : String) (target : Target) : Variable → Prop
  | leaf n => n.path = path ∧ n.target? = some target
  | dict n fs => (n.path = path ∧ n.target? = some target) ∧ FieldsBoundTo path target fs

def FieldsBoundTo (path : String) (target : Target) : List Variable → Prop
  | [] => True
  | v :: vs =>
    (∃ type, target.type.field? v.name = some type ∧
      BoundTo (subpath path v.name) { target with type } v) ∧ FieldsBoundTo path target vs

end

theorem fieldsBoundTo_iff {path : String} {target : Target} {vs : List Variable} :
    FieldsBoundTo path target vs ↔ ∀ v ∈ vs, ∃ type, target.type.field? v.name = some type ∧
      v.BoundTo (subpath path v.name) { target with type } := by
  induction vs with
  | nil => simp [FieldsBoundTo]
  | cons v vs ih => rw [FieldsBoundTo, ih, List.forall_mem_cons]

theorem boundTo_dict_iff {path : String} {target : Target} {n : Node} {fs : List Variable} :
    (dict n fs).BoundTo path target ↔ (n.path = path ∧ n.target? = some target) ∧
      ∀ v ∈ fs, ∃ type, target.type.field? v.name = some type ∧
        v.BoundTo (subpath path v.name) { target with type } := by
  rw [BoundTo, fieldsBoundTo_iff]

theorem BoundTo.node {path : String} {target : Target} {v : Variable} (h : v.BoundTo path target) :
    v.path = path ∧ v.node.target? = some target := by
  cases v with
  | leaf n => exact h
  | dict n fs => exact h.1

theorem result?_bindFields (path : String) (target : Target) (vs : List Variable) :
    (bindFields path target vs).result? = vs.mapM fun v ↦ (target.type.field? v.name).bind
      fun type ↦ (v.bindTo (subpath path v.name) { target with type }).result? := by
  induction vs with
  | nil => rfl
  | cons v vs ih =>
    rw [bindFields, option_mapM_cons, ← ih]
    cases target.type.field? v.name with
    | none => rfl
    | some type => simp only [Progress.result?_andThen, Progress.result?_map, Option.bind_some]

/-- Binding looks neither at the paths nor at the targets it finds. -/
theorem bindTo_retargeted {v w : Variable} (h : Related Node.Retargeted v w) (path : String)
    (target : Target) : (v.bindTo path target).result? = (w.bindTo path target).result? := by
  induction v generalizing w path target with
  | leaf n =>
    obtain ⟨_, rfl, _, _, rfl⟩ := related_leaf_iff.mp h
    rfl
  | dict n fs ih =>
    obtain ⟨_, gs, rfl, ⟨_, _, rfl⟩, hfg⟩ := related_dict_iff.mp h
    have hfields : (bindFields path target fs).result? = (bindFields path target gs).result? := by
      rw [result?_bindFields, result?_bindFields]
      refine mapM_eq_of_forall₂ (forall₂_of_mem hfg fun f hf g _ hrel ↦ ?_)
      have hname : g.name = f.name := hrel.node.name
      rw [hname]
      exact Option.bind_congr fun type _ ↦ ih f hf hrel _ _
    rw [bindTo, bindTo, Progress.result?_andThen, Progress.result?_andThen, hfields]

/-- What binding a variable leaves. -/
theorem bound_of_bindTo {path : String} {target : Target} {v w : Variable}
    (h : (v.bindTo path target).result? = some w) :
    w.name = v.name ∧ w.node.paramIndex? = v.node.paramIndex? ∧ w.BoundTo path target ∧
      Related Node.Rebound v w := by
  induction v generalizing path target w with
  | leaf n =>
    cases h
    exact ⟨rfl, rfl, ⟨rfl, rfl⟩, related_leaf ⟨n.name, path, some target, n.paramIndex?, rfl⟩⟩
  | dict n fs ih =>
    rw [bindTo, Progress.result?_andThen, result?_bindFields] at h
    obtain ⟨gs, hgs, h⟩ := Option.bind_eq_some_iff.mp h
    cases h
    have hfield : ∀ f ∈ fs, ∀ g, ((target.type.field? f.name).bind fun type ↦
        (f.bindTo (subpath path f.name) { target with type }).result?) = some g →
        (∃ type, target.type.field? g.name = some type ∧
          g.BoundTo (subpath path g.name) { target with type }) ∧ Related Node.Rebound f g := by
      intro f hf g hfg
      obtain ⟨type, htype, hg⟩ := Option.bind_eq_some_iff.mp hfg
      obtain ⟨hname, -, hbound, hrel⟩ := ih f hf hg
      rw [hname]
      exact ⟨⟨type, htype, hbound⟩, hrel⟩
    refine ⟨rfl, rfl, boundTo_dict_iff.mpr ⟨⟨rfl, rfl⟩, fun g hg ↦ ?_⟩,
      related_dict ⟨n.name, path, some target, n.paramIndex?, rfl⟩
        (forall₂_of_mem (mapM_eq_some_iff.mp hgs) fun f hf g _ hfg ↦ (hfield f hf g hfg).2)⟩
    obtain ⟨f, hf, hfg⟩ := exists_of_mem_mapM hgs hg
    exact (hfield f hf g hfg).1

/-- The variable is bound to a target as a root of the given name. -/
def Seated (name : String) (target : Target) (index? : Option Nat) (v : Variable) : Prop :=
  v.name = name ∧ v.node.paramIndex? = index? ∧ v.BoundTo name target

/-- The name of a root that is bound: its own if it has one, or else that of its parameter. -/
def rootName (v : Variable) (name : String) : String := if v.name.isEmpty then name else v.name

theorem rootName_of_name {v : Variable} {name : String} (h : v.name = "" ∨ v.name = name) :
    v.rootName name = name := by
  rcases h with hv | hv
  · rw [rootName, hv]
    rfl
  · rw [rootName, hv, ite_self]

theorem rootName_self (v : Variable) : v.rootName v.name = v.name := ite_self v.name

theorem seated_rootName {v w : Variable} {name : String} {target : Target} {index? : Option Nat}
    (h : (v.bindRoot name target index?).result? = some w) :
    w.Seated (v.rootName name) target index? ∧ Related Node.Rebound v w := by
  obtain ⟨hname, hindex, hbound, hrel⟩ := bound_of_bindTo h
  have hnode : (v.mapNode fun n ↦ { n with name := v.rootName name, paramIndex? := index? }).node =
      { v.node with name := v.rootName name, paramIndex? := index? } := node_mapNode _ v
  refine ⟨⟨hname.trans (congrArg Node.name hnode), hindex.trans (congrArg Node.paramIndex? hnode),
    hbound⟩, ?_⟩
  refine (related_mapNode (fun n ↦ ?_) Node.Rebound.refl).trans hrel fun _ _ _ ↦ Node.Rebound.trans
  exact ⟨v.rootName name, n.path, n.target?, index?, rfl⟩

theorem seated_of_bindRoot {name : String} {target : Target} {index? : Option Nat}
    {v w : Variable} (hname : v.name = "" ∨ v.name = name)
    (h : (v.bindRoot name target index?).result? = some w) :
    w.Seated name target index? ∧ Related Node.Rebound v w := by
  rw [← rootName_of_name hname]
  exact seated_rootName h

end Variable

/-- What a keyword stands for: the receiver, which travels both ways, the returned value, which
travels out, or the first parameter of its name. -/
def Function.seat? (f : Function) (keyword : String) : Option (Target × Option Nat) :=
  if keyword == receiverKeyword then
    f.receiverType.map fun type ↦ (⟨type, { inputOutput := true }⟩, none)
  else if keyword == resultKeyword then
    f.returnType.map fun type ↦ (⟨type, { output := true }⟩, none)
  else (f.param? keyword).map fun (index, p) ↦ (⟨p.type, p.modifiers⟩, some index)

theorem Function.name_of_param? {f : Function} {name : String} {index : Nat} {p : Parameter}
    (h : f.param? name = some (index, p)) : p.name = name ∧ f.params[index]? = some p := by
  obtain ⟨i, hi, h⟩ := Option.bind_eq_some_iff.mp h
  obtain ⟨q, hq, h⟩ := Option.bind_eq_some_iff.mp h
  cases h
  refine ⟨?_, hq⟩
  obtain ⟨hlt, hname, -⟩ := List.findIdx?_eq_some_iff_getElem.mp hi
  rw [List.getElem?_eq_getElem hlt] at hq
  cases hq
  exact beq_iff_eq.mp hname

namespace Call

/-! ## Seats of keyword variables -/

theorem seated_of_bindKeyword {f : Function} {v w : Variable} {target : Target}
    {index? : Option Nat} (hseat : f.seat? v.name = some (target, index?))
    (h : (bindKeyword f v).result? = some w) :
    w.Seated v.name target index? ∧ Variable.Related Node.Rebound v w := by
  rw [Function.seat?] at hseat
  rw [bindKeyword] at h
  by_cases hreceiver : v.name = receiverKeyword
  · rw [if_pos (beq_iff_eq.mpr hreceiver)] at hseat h
    obtain ⟨type, htype, hseat⟩ := Option.map_eq_some_iff.mp hseat
    cases hseat
    rw [htype, ← hreceiver] at h
    exact Variable.seated_of_bindRoot (Or.inr rfl) h
  rw [if_neg (by rwa [beq_iff_eq])] at hseat h
  by_cases hresult : v.name = resultKeyword
  · rw [if_pos (beq_iff_eq.mpr hresult)] at hseat h
    obtain ⟨type, htype, hseat⟩ := Option.map_eq_some_iff.mp hseat
    cases hseat
    rw [htype, ← hresult] at h
    exact Variable.seated_of_bindRoot (Or.inr rfl) h
  rw [if_neg (by rwa [beq_iff_eq])] at hseat h
  obtain ⟨⟨index, p⟩, hp, hseat⟩ := Option.map_eq_some_iff.mp hseat
  cases hseat
  have hbind : (v.bindRoot p.name ⟨p.type, p.modifiers⟩ (some index)).result? = some w := by
    rw [hp] at h
    exact h
  rw [(Function.name_of_param? hp).1] at hbind
  exact Variable.seated_of_bindRoot (Or.inr rfl) hbind

theorem isSome_seat?_of_checkKeyword {f : Function} {filled : List Nat} {name : String}
    {index? : Option Nat} (h : checkKeyword f filled name = .ok index?) : (f.seat? name).isSome := by
  rw [checkKeyword] at h
  rw [Function.seat?]
  by_cases hreceiver : name == receiverKeyword
  · rw [if_pos hreceiver] at h ⊢
    cases htype : f.receiverType with
    | none => rw [htype] at h; cases h
    | some type => rfl
  rw [if_neg hreceiver] at h ⊢
  by_cases hresult : name == resultKeyword
  · rw [if_pos hresult] at h ⊢
    cases htype : f.returnType with
    | none => rw [htype] at h; cases h
    | some type => rfl
  rw [if_neg hresult] at h ⊢
  cases hindex : f.paramIndex? name with
  | none => rw [hindex] at h; cases h
  | some index =>
    obtain ⟨hlt, -⟩ := List.findIdx?_eq_some_iff_getElem.mp hindex
    have hparam : f.param? name = some (index, f.params[index]) := by
      simp [Function.param?, hindex, List.getElem?_eq_getElem hlt]
    rw [hparam]
    rfl

theorem isSome_seat?_of_checkKeywords {f : Function} {filled filled' : List Nat}
    {names : List String} (h : checkKeywords f filled names = .ok filled') :
    ∀ name ∈ names, (f.seat? name).isSome := by
  induction names generalizing filled with
  | nil => simp
  | cons name names ih =>
    rw [checkKeywords] at h
    cases hname : checkKeyword f filled name with
    | error e => rw [hname] at h; cases h
    | ok index? =>
      rw [hname] at h
      refine List.forall_mem_cons.mpr ⟨isSome_seat?_of_checkKeyword hname, ?_⟩
      cases index? with
      | none => exact ih h
      | some index => exact ih h

/-- A call whose arity is right has a parameter for each positional variable and a seat for each
keyword. -/
theorem seats_of_checkArity {f : Function} {c : Call} (h : c.checkArity f = .ok ()) :
    c.args.length ≤ f.params.length ∧ ∀ v ∈ c.kwargs, (f.seat? v.name).isSome := by
  rw [checkArity] at h
  by_cases hlen : f.params.length < c.args.length
  · rw [if_pos hlen] at h
    cases h
  rw [if_neg hlen] at h
  refine ⟨Nat.le_of_not_lt hlen, fun v hv ↦ ?_⟩
  cases hkeys : checkKeywords f (List.range c.args.length) (c.kwargs.map (·.name)) with
  | error e => rw [hkeys] at h; cases h
  | ok filled => exact isSome_seat?_of_checkKeywords hkeys v.name (List.mem_map_of_mem hv)

/-! ## Seats of positional variables -/

theorem seated_of_bindPositional {index : Nat} {vs ws : List Variable} {ps : List Parameter}
    (hnames : ∀ v ∈ vs, v.name = "") (hlen : vs.length ≤ ps.length)
    (h : (bindPositional index vs ps).result? = some ws) :
    (∀ (i : Nat) (w : Variable), ws[i]? = some w → ∃ p, ps[i]? = some p ∧
      w.Seated p.name ⟨p.type, p.modifiers⟩ (some (index + i))) ∧
      List.Forall₂ (Variable.Related Node.Rebound) vs ws := by
  induction vs generalizing index ps ws with
  | nil =>
    have hnil : ws = [] := by cases ps <;> cases h <;> rfl
    rw [hnil]
    exact ⟨by simp, .nil⟩
  | cons v vs ih =>
    cases ps with
    | nil => cases hlen
    | cons p ps =>
      rw [bindPositional, Progress.result?_andThen] at h
      simp only [Progress.result?_map] at h
      obtain ⟨w, hw, h⟩ := Option.bind_eq_some_iff.mp h
      obtain ⟨ws, hws, rfl⟩ := Option.map_eq_some_iff.mp h
      rw [List.forall_mem_cons] at hnames
      obtain ⟨hseat, hrel⟩ := Variable.seated_of_bindRoot (Or.inl hnames.1) hw
      obtain ⟨hseats, hrels⟩ := ih hnames.2 (Nat.le_of_succ_le_succ hlen) hws
      refine ⟨fun i u hu ↦ ?_, .cons hrel hrels⟩
      cases i with
      | zero =>
        cases hu
        exact ⟨p, rfl, hseat⟩
      | succ i =>
        rw [Nat.add_comm i 1, ← Nat.add_assoc, Nat.add_comm 1 i]
        exact hseats i u hu

/-- **A bound call.** Its arity is right, and every variable is in its seat. -/
structure Bound (f : Function) (c : Call) : Prop where
  function : c.function? = some f
  arity : c.checkArity f = .ok ()
  positional : ∀ (i : Nat) (v : Variable), c.args[i]? = some v → ∃ p, f.params[i]? = some p ∧
    v.Seated p.name ⟨p.type, p.modifiers⟩ (some i)
  keyword : ∀ v ∈ c.kwargs, ∃ target index?, f.seat? v.name = some (target, index?) ∧
    v.Seated v.name target index?

theorem checkArity_congr {f : Function} {c c' : Call} (hargs : c'.args.length = c.args.length)
    (hkwargs : c'.kwargs.map (·.name) = c.kwargs.map (·.name)) :
    c'.checkArity f = c.checkArity f := by
  rw [checkArity, checkArity, hargs, hkwargs]

/-- Keyword arguments that are bound are in the seats of their names. -/
theorem seated_of_bindKeywords {f : Function} {vs ws : List Variable}
    (hseats : ∀ v ∈ vs, (f.seat? v.name).isSome)
    (h : vs.mapM (fun v ↦ (bindKeyword f v).result?) = some ws) :
    List.Forall₂ (fun v w ↦ (∃ target index?, f.seat? w.name = some (target, index?) ∧
      w.Seated w.name target index?) ∧ v.name = w.name ∧ Variable.Related Node.Rebound v w) vs ws := by
  refine forall₂_of_mem (mapM_eq_some_iff.mp h) fun v hv w _ hvw ↦ ?_
  obtain ⟨⟨target, index?⟩, hseat⟩ := Option.isSome_iff_exists.mp (hseats v hv)
  obtain ⟨hw, hrel⟩ := seated_of_bindKeyword hseat hvw
  have hname := hw.1
  rw [← hname] at hseat hw
  exact ⟨⟨target, index?, hseat, hw⟩, hname.symm, hrel⟩

theorem bound_of_bind {f : Function} {c c' : Call} (hnames : ∀ v ∈ c.args, v.name = "")
    (h : (c.bind f).result? = some c') :
    c'.Bound f ∧ List.Forall₂ (Variable.Related Node.Rebound) c.roots c'.roots ∧
      c'.kwargs.map (·.name) = c.kwargs.map (·.name) := by
  rw [bind] at h
  cases harity : c.checkArity f with
  | error e => rw [harity] at h; cases h
  | ok u =>
    rw [harity] at h
    simp only [Progress.result?_andThen, Progress.result?_traverse, Progress.result?_done] at h
    obtain ⟨args, hargs, h⟩ := Option.bind_eq_some_iff.mp h
    obtain ⟨kwargs, hkwargs, h⟩ := Option.bind_eq_some_iff.mp h
    cases h
    obtain ⟨hlen, hsome⟩ := seats_of_checkArity harity
    obtain ⟨hseats, hrels⟩ := seated_of_bindPositional hnames hlen hargs
    have hmembers := seated_of_bindKeywords hsome hkwargs
    have hkeys : c.kwargs.map (·.name) = kwargs.map (·.name) :=
      map_eq_of_forall₂ (hmembers.imp fun _ _ h ↦ h.2.1)
    refine ⟨⟨rfl, ?_, ?_, ?_⟩, ?_, hkeys.symm⟩
    · rw [← harity]
      exact checkArity_congr hrels.length_eq.symm hkeys.symm
    · intro i w hw
      obtain ⟨p, hp, hw⟩ := hseats i w hw
      rw [Nat.zero_add] at hw
      exact ⟨p, hp, hw⟩
    · intro w hw
      obtain ⟨v, -, hseated, -⟩ := exists_of_forall₂_right hmembers hw
      exact hseated
    · exact List.rel_append hrels (hmembers.imp fun _ _ h ↦ h.2.2)

end Call

end KernelCall
