import KernelCall.Proofs.Call.Passing
import KernelCall.Proofs.Call.Run

/-!
# Binding once more

A call may be bound again, and trying one function after the other does just that. Binding writes over
what an earlier attempt has left: targets and positions are those of the last function, on every node,
and so are all paths below the name of a root. What is not written over is that name. A positional
root takes the name of its parameter only while it has none, so the first function that comes to it
names it for good.

The statement is about a single binding at the end of any attempts. It comes to what binding a fresh
call comes to, but for the names that the roots have by then and the paths that start from them.
-/

namespace KernelCall

namespace Variable

/-! ## Other paths -/

mutual

/-- Has a variable reached by another path. -/
def repath (path : String) : Variable → Variable
  | leaf n => leaf { n with path }
  | dict n fs => dict { n with path } (repathFields path fs)

def repathFields (path : String) : List Variable → List Variable
  | [] => []
  | v :: vs => v.repath (subpath path v.name) :: repathFields path vs

end

theorem repathFields_eq_map (path : String) (vs : List Variable) :
    repathFields path vs = vs.map fun v ↦ v.repath (subpath path v.name) := by
  induction vs with
  | nil => rfl
  | cons v vs ih => rw [repathFields, ih, List.map_cons]

/-- Gives a root another name, and its parts the paths that start from it. -/
def reroot (name : String) (v : Variable) : Variable := (v.repath name).rename name

theorem name_reroot (name : String) (v : Variable) : (v.reroot name).name = name := by
  rcases v with n | ⟨n, fs⟩ <;> rfl

theorem BoundTo.repath_eq {v : Variable} {path : String} {target : Target}
    (h : v.BoundTo path target) : v.repath path = v := by
  induction v generalizing path target with
  | leaf n =>
    rw [repath, ← h.1]
  | dict n fs ih =>
    obtain ⟨⟨hpath, -⟩, hfields⟩ := boundTo_dict_iff.mp h
    have hself : ∀ f ∈ fs, f.repath (subpath path f.name) = f := by
      intro f hf
      obtain ⟨type, -, hbound⟩ := hfields f hf
      exact ih f hf hbound
    rw [repath, repathFields_eq_map, List.map_congr_left hself, List.map_id', ← hpath]

theorem Seated.reroot_eq_iff {v : Variable} {name other : String} {target : Target}
    {index? : Option Nat} (h : v.Seated name target index?) :
    v.reroot other = v ↔ other = v.name := by
  constructor
  · intro heq
    rw [← heq, name_reroot]
  · rintro rfl
    rw [reroot, h.1, h.2.2.repath_eq, ← h.1, rename_self]

theorem rootName_eq_iff {v : Variable} {name : String} :
    v.rootName name = name ↔ v.name = "" ∨ v.name = name := by
  constructor
  · intro h
    by_cases hempty : v.name = ""
    · exact Or.inl hempty
    · rw [rootName, if_neg (by rwa [String.isEmpty_iff])] at h
      exact Or.inr h
  · exact rootName_of_name

/-! ## Binding on other paths and under other names -/

/-- What is bound on another path is the same, on that path. -/
theorem bindTo_repath (v : Variable) (path path' : String) (target : Target) :
    (v.bindTo path' target).result? = (v.bindTo path target).result?.map (repath path') := by
  induction v generalizing path path' target with
  | leaf n => rfl
  | dict n fs ih =>
    have hfields : (bindFields path' target fs).result? =
        (bindFields path target fs).result?.map (repathFields path') := by
      rw [result?_bindFields, result?_bindFields]
      induction fs with
      | nil => rfl
      | cons f fs ihs =>
        rw [List.forall_mem_cons] at ih
        rw [option_mapM_cons, option_mapM_cons, ihs ih.2]
        rcases target.type.field? f.name with _ | type
        · rfl
        rw [Option.bind_some, Option.bind_some, ih.1 (subpath path f.name)]
        rcases hg : (f.bindTo (subpath path f.name) { target with type }).result? with _ | g
        · rfl
        rw [Option.map_some, Option.bind_some, Option.bind_some, ← (bound_of_bindTo hg).1,
          Option.map_map, Option.map_map]
        rfl
    rw [bindTo, bindTo, Progress.result?_andThen, Progress.result?_andThen, hfields,
      Option.map_bind, Option.bind_map]
    rfl

theorem bindTo_rename (v : Variable) (name path : String) (target : Target) :
    ((v.rename name).bindTo path target).result? =
      (v.bindTo path target).result?.map (rename name) := by
  rcases v with n | ⟨n, fs⟩
  · rfl
  · rw [rename, mapNode, bindTo, bindTo, Progress.result?_andThen, Progress.result?_andThen,
      Option.map_bind]
    rfl

theorem bindTo_reroot (v : Variable) (name name' : String) (target : Target)
    (paramIndex? : Option Nat) :
    ((v.mapNode fun n ↦ { n with name := name', paramIndex? }).bindTo name' target).result? =
      ((v.mapNode fun n ↦ { n with name, paramIndex? }).bindTo name target).result?.map
        (reroot name') := by
  have hroot : (v.mapNode fun n ↦ { n with name := name', paramIndex? }) =
      (v.mapNode fun n ↦ { n with name, paramIndex? }).rename name' := by
    rw [rename, mapNode_mapNode]
  rw [hroot, bindTo_rename, bindTo_repath _ name name', Option.map_map]
  rfl

/-! ## What attempts leave -/

/-- The root may be named and placed otherwise, and every node be bound otherwise. -/
def Reseated (v w : Variable) : Prop :=
  ∃ name paramIndex?, Related Node.Retargeted (v.mapNode fun n ↦ { n with name, paramIndex? }) w

theorem reseated_refl (v : Variable) : v.Reseated v := by
  have hself : (v.mapNode fun n ↦
      { n with name := v.name, paramIndex? := v.node.paramIndex? }) = v := by
    rcases v with n | ⟨n, fs⟩ <;> rfl
  refine ⟨v.name, v.node.paramIndex?, ?_⟩
  rw [hself]
  exact related_self fun n _ ↦ Node.Retargeted.refl n

/-- Roots that differ by an attempt are alike once they are named and placed anew. -/
theorem Reseated.mapNode {v w : Variable} (h : v.Reseated w) (name : String)
    (paramIndex? : Option Nat) : Related Node.Retargeted
      (v.mapNode fun n ↦ { n with name, paramIndex? })
      (w.mapNode fun n ↦ { n with name, paramIndex? }) := by
  obtain ⟨name', paramIndex', hvw⟩ := h
  have hset := hvw.mapNode (f := fun n ↦ { n with name, paramIndex? }) fun n m hnm ↦ by
    obtain ⟨path, target?, rfl⟩ := hnm
    exact ⟨path, target?, rfl⟩
  rwa [mapNode_mapNode] at hset

theorem Reseated.trans {u v w : Variable} (huv : u.Reseated v) (hvw : v.Reseated w) :
    u.Reseated w := by
  obtain ⟨name, paramIndex?, hvw⟩ := hvw
  exact ⟨name, paramIndex?, (huv.mapNode name paramIndex?).trans hvw
    fun _ _ _ ↦ Node.Retargeted.trans⟩

theorem reseated_bindRoot (v : Variable) (name : String) (target : Target)
    (paramIndex? : Option Nat) : v.Reseated (v.bindRoot name target paramIndex?).state :=
  ⟨v.rootName name, paramIndex?, related_bindTo _ _ _⟩

/-- What a root is bound to does not depend on earlier attempts, up to its name. -/
theorem Reseated.result?_bindRoot {v w : Variable} (h : v.Reseated w) (name : String)
    (target : Target) (paramIndex? : Option Nat) :
    (w.bindRoot name target paramIndex?).result? =
      ((v.mapNode fun n ↦ { n with name := w.rootName name, paramIndex? }).bindTo
        (w.rootName name) target).result? :=
  (bindTo_retargeted (h.mapNode (w.rootName name) paramIndex?) _ target).symm

/-- A bound variable, under the name that its root had before if it had one. -/
def keepingName (old new : Variable) : Variable := new.reroot (old.rootName new.name)

/-- **A root that is bound once more** keeps its name. -/
theorem Reseated.bindRoot_eq {v w : Variable} (h : v.Reseated w) (hname : v.name = "")
    (name : String) (target : Target) (paramIndex? : Option Nat) :
    (w.bindRoot name target paramIndex?).result? =
      (v.bindRoot name target paramIndex?).result?.map (keepingName w) := by
  have hfresh : v.rootName name = name := rootName_of_name (Or.inl hname)
  have hv : (v.bindRoot name target paramIndex?).result? =
      ((v.mapNode fun n ↦ { n with name, paramIndex? }).bindTo name target).result? := by
    rw [(reseated_refl v).result?_bindRoot, hfresh]
  rw [h.result?_bindRoot, bindTo_reroot v name, ← hv]
  rcases hu : (v.bindRoot name target paramIndex?).result? with _ | u
  · rfl
  · have huname : u.name = name := hfresh ▸ (seated_rootName hu).1.1
    rw [Option.map_some, Option.map_some, keepingName, huname]

end Variable

namespace Call

/-- Every root has been seated any number of times, and keywords are what they were. -/
structure Attempted (c c' : Call) : Prop where
  positional : List.Forall₂ Variable.Reseated c.args c'.args
  keyword : List.Forall₂ (fun v w ↦ w.name = v.name ∧ v.Reseated w) c.kwargs c'.kwargs

theorem attempted_refl (c : Call) : c.Attempted c :=
  ⟨List.forall₂_same.mpr fun v _ ↦ v.reseated_refl,
    List.forall₂_same.mpr fun v _ ↦ ⟨rfl, v.reseated_refl⟩⟩

theorem reseated_bindPositional (index : Nat) (vs : List Variable) (ps : List Parameter) :
    List.Forall₂ Variable.Reseated vs (bindPositional index vs ps).state :=
  forall₂_state_bindPositional Variable.reseated_refl Variable.reseated_bindRoot index vs ps

theorem reseated_bindKeyword (f : Function) (v : Variable) :
    v.Reseated (bindKeyword f v).state := by
  rw [bindKeyword_eq]
  split
  · exact v.reseated_bindRoot _ _ _
  · exact v.reseated_refl

/-- **The step lemma**: an attempt seats roots, whether it goes through or not. -/
theorem attempted_bind (f : Function) (c : Call) : c.Attempted (c.bind f).state := by
  have hargs := reseated_bindPositional 0 c.args f.params
  have hkwargs := Progress.forall₂_state_traverse (R := fun v w : Variable ↦
      w.name = v.name ∧ v.Reseated w)
    (fun v (_ : v ∈ c.kwargs) ↦ ⟨(altered_bindKeyword f v).1, reseated_bindKeyword f v⟩)
    fun v _ ↦ ⟨rfl, v.reseated_refl⟩
  rw [bind]
  split
  · exact c.attempted_refl
  · refine Progress.state_andThen_cases ?_ (Progress.state_andThen_cases ?_ ?_)
    · exact ⟨hargs, c.attempted_refl.keyword⟩
    · exact ⟨hargs, hkwargs⟩
    · exact ⟨hargs, hkwargs⟩

theorem Attempted.trans {c c' c'' : Call} (h : c.Attempted c') (h' : c'.Attempted c'') :
    c.Attempted c'' := by
  constructor
  · exact forall₂_of_common h.positional.flip h'.positional fun _ _ _ _ huv hvw ↦
      Variable.Reseated.trans huv hvw
  · refine forall₂_of_common h.keyword.flip h'.keyword fun v _ u w huv hvw ↦ ?_
    exact ⟨hvw.1.trans huv.1, huv.2.trans hvw.2⟩

theorem attempted_after (fs : List Function) (c : Call) :
    c.Attempted (c.after (fs.map .bind)) := by
  induction fs generalizing c with
  | nil => exact c.attempted_refl
  | cons f fs ih => exact (attempted_bind f c).trans (ih (c.bind f).state)

/-! ## What the last binding leaves -/

/-- The positional roots of the second call, under the names that those of the first had. -/
def keepingNames (c c' : Call) : Call :=
  { c' with args := c.args.zipWith Variable.keepingName c'.args }

theorem result?_bindPositional_of_reseated {vs ws : List Variable}
    (h : List.Forall₂ Variable.Reseated vs ws) (hnames : ∀ v ∈ vs, v.name = "")
    {ps : List Parameter} (hlen : vs.length ≤ ps.length) (index : Nat) :
    (bindPositional index ws ps).result? =
      (bindPositional index vs ps).result?.map (ws.zipWith Variable.keepingName) := by
  induction h generalizing index ps with
  | nil => rcases ps with _ | ⟨p, ps⟩ <;> rfl
  | @cons v w vs ws hvw _ ih =>
    rcases ps with _ | ⟨p, ps⟩
    · exact absurd hlen (by simp)
    rw [List.forall_mem_cons] at hnames
    rw [bindPositional, bindPositional, Progress.result?_andThen, Progress.result?_andThen,
      hvw.bindRoot_eq hnames.1, Option.bind_map, Option.map_bind]
    refine Option.bind_congr fun u _ ↦ ?_
    rw [Function.comp_apply, Function.comp_apply, Progress.result?_map, Progress.result?_map,
      ih hnames.2 (Nat.le_of_succ_le_succ hlen), Option.map_map, Option.map_map]
    rfl

theorem result?_bindKeyword_of_reseated {f : Function} {v w : Variable} (hname : w.name = v.name)
    (h : v.Reseated w) (hseat : (f.seat? v.name).isSome) :
    (bindKeyword f w).result? = (bindKeyword f v).result? := by
  obtain ⟨⟨target, index?⟩, hseat⟩ := Option.isSome_iff_exists.mp hseat
  have hroot : w.rootName v.name = v.rootName v.name := by
    rw [v.rootName_self, ← hname, w.rootName_self]
  rw [bindKeyword_eq, bindKeyword_eq, hname, hseat]
  change (w.bindRoot _ _ _).result? = (v.bindRoot _ _ _).result?
  rw [h.result?_bindRoot, v.reseated_refl.result?_bindRoot, hroot]

/-- **Binding once more** comes to what the first binding would have, but for the names that the
positional roots have by then. -/
theorem Attempted.result?_bind {c c' : Call} (h : c.Attempted c')
    (hnames : ∀ v ∈ c.args, v.name = "") (f : Function) :
    (c'.bind f).result? = (c.bind f).result?.map c'.keepingNames := by
  have hkeywords : c'.kwargs.map (·.name) = c.kwargs.map (·.name) :=
    (map_eq_of_forall₂ (h.keyword.imp fun _ _ hvw ↦ hvw.1.symm)).symm
  have harity := checkArity_congr (f := f) h.positional.length_eq.symm hkeywords
  rw [bind, bind, harity]
  split
  · rfl
  · next hok =>
    obtain ⟨hlen, hseats⟩ := seats_of_checkArity hok
    have hkwargs : c'.kwargs.mapM (fun v ↦ (bindKeyword f v).result?) =
        c.kwargs.mapM (fun v ↦ (bindKeyword f v).result?) :=
      (mapM_eq_of_forall₂ (forall₂_of_mem h.keyword fun v hv w _ hvw ↦
        (result?_bindKeyword_of_reseated hvw.1 hvw.2 (hseats v hv)).symm)).symm
    simp only [Progress.result?_andThen, Progress.result?_traverse, Progress.result?_done,
      result?_bindPositional_of_reseated h.positional hnames hlen, hkwargs, Option.bind_map,
      Option.map_bind]
    refine Option.bind_congr fun args _ ↦ ?_
    rw [Function.comp_apply, Function.comp_apply, Option.map_bind]
    rfl

/-! ## The names that are left -/

/-- A root keeps its name. One that has none takes the parameter's, if binding comes to it. -/
theorem name_bindPositional {index : Nat} {vs : List Variable} {ps : List Parameter} {i : Nat}
    {w : Variable} (h : (bindPositional index vs ps).state[i]? = some w) :
    ∃ v, vs[i]? = some v ∧
      (w.name = v.name ∨ v.name = "" ∧ ∃ p, ps[i]? = some p ∧ w.name = p.name) := by
  induction vs generalizing index ps i with
  | nil =>
    rcases ps with _ | ⟨p, ps⟩ <;> exact absurd h (by simp [bindPositional])
  | cons v vs ih =>
    rcases ps with _ | ⟨p, ps⟩
    · exact ⟨w, h, Or.inl rfl⟩
    have hfirst : ∀ u, some (v.bindRoot p.name ⟨p.type, p.modifiers⟩ (some index)).state = some u →
        u.name = v.name ∨ v.name = "" ∧ ∃ q, some p = some q ∧ u.name = q.name := by
      intro u hu
      obtain rfl := Option.some.inj hu
      rw [Variable.name_bindRoot]
      split
      · next hempty => exact Or.inr ⟨String.isEmpty_iff.mp hempty, p, rfl, rfl⟩
      · exact Or.inl rfl
    revert h
    rw [bindPositional]
    refine Progress.state_andThen_cases (motive := fun ws : List Variable ↦ ws[i]? = some w → _)
      (fun h ↦ ?_) fun h ↦ ?_
    all_goals rcases i with _ | i
    · exact ⟨v, rfl, hfirst w h⟩
    · exact ⟨w, h, Or.inl rfl⟩
    · exact ⟨v, rfl, hfirst w h⟩
    · exact ih h

theorem name_bind {f : Function} {c : Call} {i : Nat} {w : Variable}
    (h : (c.bind f).state.args[i]? = some w) :
    ∃ v, c.args[i]? = some v ∧
      (w.name = v.name ∨ v.name = "" ∧ ∃ p, f.params[i]? = some p ∧ w.name = p.name) := by
  revert h
  rw [bind]
  split
  · exact fun h ↦ ⟨w, h, Or.inl rfl⟩
  · refine Progress.state_andThen_cases (motive := fun c' : Call ↦ c'.args[i]? = some w → _)
      name_bindPositional ?_
    exact Progress.state_andThen_cases (motive := fun c' : Call ↦ c'.args[i]? = some w → _)
      name_bindPositional name_bindPositional

/-- **Names stay**: a name that a root has after some attempts is not taken away by further ones. -/
theorem name_after {fs : List Function} {c : Call} {i : Nat} {w : Variable}
    (h : (c.after (fs.map .bind)).args[i]? = some w) : ∃ v, c.args[i]? = some v ∧
      (w.name = v.name ∨ v.name = "" ∧ ∃ f ∈ fs, ∃ p, f.params[i]? = some p ∧ w.name = p.name) := by
  induction fs generalizing c with
  | nil => exact ⟨w, h, Or.inl rfl⟩
  | cons f fs ih =>
    obtain ⟨u, hu, hname⟩ := ih h
    obtain ⟨v, hv, hname'⟩ := name_bind hu
    refine ⟨v, hv, ?_⟩
    rcases hname with hname | ⟨hempty, g, hg, hname⟩
    · rw [hname]
      exact hname'.imp_right fun ⟨hempty, hp⟩ ↦ ⟨hempty, f, List.mem_cons_self, hp⟩
    · apply Or.inr
      refine ⟨?_, g, List.mem_cons_of_mem f hg, hname⟩
      -- without a name after the attempt there was none before
      rcases hname' with hname' | ⟨hempty', -⟩
      · exact hname' ▸ hempty
      · exact hempty'

/-- What attempts at the functions `fs` mean for a binding to `g` after them. -/
structure Rebinds (fs : List Function) (g : Function) (start c : Call) : Prop where
  /-- A name that a positional root has by then is that of its parameter in one of the functions. -/
  named : ∀ (i : Nat) (v : Variable), c.args[i]? = some v →
    v.name = "" ∨ ∃ f ∈ fs, ∃ p, f.params[i]? = some p ∧ v.name = p.name
  /-- The binding goes through if and only if that of the fresh call does, and to the same call, but
  for the names of positional roots. -/
  result : (c.bind g).result? = (start.bind g).result?.map c.keepingNames
  /-- The two are the same call if and only if no root has a name that is not its parameter's. -/
  fresh_iff : ∀ d, (start.bind g).result? = some d → ((c.bind g).result? = some d ↔
    ∀ (i : Nat) (v : Variable) (p : Parameter), c.args[i]? = some v → g.params[i]? = some p →
      v.name = "" ∨ v.name = p.name)

/-- **Binding after any attempts.** Whichever functions a call of some arguments has been bound to
before, and wherever those attempts have stopped, binding it to `g` does what it would have done at
first, except that positional roots keep the names they have. -/
theorem rebinds_of_ofArguments {registry : MarshallRegistry} {a : Arguments} {start : Call}
    (h : ofArguments registry a = .ok start) (fs : List Function) (g : Function) :
    Rebinds fs g start (start.after (fs.map .bind)) := by
  have hattempted := attempted_after fs start
  have hnames := name_of_mem_args h
  have hresult := hattempted.result?_bind hnames g
  generalize hc : start.after (fs.map .bind) = c at *
  constructor
  · intro i v hv
    rw [← hc] at hv
    obtain ⟨u, hu, hname⟩ := name_after hv
    rw [hnames u (List.mem_of_getElem? hu)] at hname
    exact hname.imp_right And.right
  · exact hresult
  · intro d hd
    have hkeeps : c.keepingNames d = d ↔ c.args.zipWith Variable.keepingName d.args = d.args := by
      constructor
      · exact congrArg Call.args
      · intro heq
        rw [keepingNames, heq]
    have hpositional := (bindsTo_of_bind hd).positional
    have hlen : c.args.length = d.args.length := by
      have hfits := (seats_of_checkArity (bind_eq_some_iff.mp hd).1).1
      rw [← hattempted.positional.length_eq, ← hpositional.length_eq,
        length_positionalSeating hfits]
    rw [hresult, hd, Option.map_some, Option.some.injEq, hkeeps, zipWith_eq_right_iff hlen,
      forall₂_iff_getElem? hlen]
    -- a root of the fresh call has the name of its parameter
    have hroot : ∀ (i : Nat) (v w : Variable), d.args[i]? = some w → ∃ p, g.params[i]? = some p ∧
        (v.keepingName w = w ↔ v.name = "" ∨ v.name = p.name) := by
      intro i v w hw
      obtain ⟨p, hp, hseat⟩ := (bound_of_bind hnames hd).1.positional i w hw
      refine ⟨p, hp, ?_⟩
      rw [Variable.keepingName, hseat.reroot_eq_iff, Variable.rootName_eq_iff, hseat.1]
    constructor
    · intro hsame i v p hv hp
      have hi : i < d.args.length := hlen ▸ (List.getElem?_eq_some_iff.mp hv).1
      obtain ⟨p', hp', hiff⟩ := hroot i v _ (List.getElem?_eq_getElem hi)
      obtain rfl : p' = p := by simpa [hp] using hp'.symm
      exact hiff.mp (hsame i v _ hv (List.getElem?_eq_getElem hi))
    · intro hsame i v w hv hw
      obtain ⟨p, hp, hiff⟩ := hroot i v w hw
      exact hiff.mpr (hsame i v p hv hp)

/-- A kernel that takes a number under another name. -/
def negate : Function where
  name := "negate"
  params := [{ name := "value", type := .scalar .float }]

/-- One number. -/
def number : Arguments where
  args := [.int 1]

theorem rebinds_number : ∃ start, ofArguments .builtin number = .ok start ∧
    Rebinds [scale] negate start (start.after [.bind scale]) :=
  ⟨_, rfl, @rebinds_of_ofArguments .builtin number _ rfl [scale] negate⟩

/-- **The name of the first attempt stays.** A number that was bound to the parameter of one kernel
goes by that name in a call of another. -/
theorem bind_ne_bind_of_attempt : ∃ start, ofArguments .builtin number = .ok start ∧
    ∃ c d, ((start.after [.bind scale]).bind negate).result? = some c ∧
      (start.bind negate).result? = some d ∧
        c.args.map (·.name) = ["x"] ∧ d.args.map (·.name) = ["value"] :=
  ⟨_, rfl, _, _, rfl, rfl, rfl, rfl⟩

end Call

end KernelCall
