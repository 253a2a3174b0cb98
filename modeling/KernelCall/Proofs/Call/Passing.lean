import KernelCall.Proofs.Call.Built
import KernelCall.Proofs.Call.Fitting
import Mathlib.Data.List.Perm.Subperm

/-!
# Passing arguments

Positional and keyword arguments take different ways into a call: a positional variable starts
without a name and on no path, a keyword variable with its keyword for both, and overrides come to
the one by place and to the other by name. Binding makes them alike. It gives every root the name of
its seat and every node the path by which it is reached, so that of the way a value came nothing is
left, and what becomes of it is settled by the seat, the value and the override alone: `Passing`.
-/

namespace KernelCall

/-! ## Where a value comes from -/

/-- The nodes differ in their paths only. -/
def Node.Moved (n m : Node) : Prop := m = { n with path := m.path }

theorem Node.Moved.retargeted {n m : Node} (h : n.Moved m) : n.Retargeted m :=
  ⟨m.path, n.target?, h⟩

theorem MarshallRegistry.carry_moved {registry : MarshallRegistry} {path : String} {h : HostValue}
    {m : Marshall} (hm : registry.carry path h = .ok m) (path' : String) :
    registry.carry path' h = .ok m := by
  rw [carry] at hm ⊢
  split at hm
  · exact hm
  · cases hm

namespace Variable

/-- Gives a name to the root. -/
def rename (name : String) (v : Variable) : Variable := v.mapNode fun n ↦ { n with name }

theorem mapNode_mapNode (f g : Node → Node) (v : Variable) :
    (v.mapNode f).mapNode g = v.mapNode fun n ↦ g (f n) := by
  cases v <;> rfl

theorem rename_self (v : Variable) : v.rename v.name = v := by
  cases v <;> rfl

/-- The variable of a value has the same shape on every path and under every name. -/
theorem ofValue_moved {registry : MarshallRegistry} {path name : String} {h : HostValue}
    {v : Variable} (hv : ofValue registry path name h = .ok v) (path' name' : String) :
    ∃ v', ofValue registry path' name' h = .ok v' ∧ Related Node.Moved (v.rename name') v' := by
  induction h using HostValue.entrywise generalizing path name v path' name' with
  | plain h hkind =>
    obtain ⟨m, hm, rfl⟩ := ofValue_eq_leaf hkind hv
    refine ⟨leaf { name := name', path := path', marshall := m }, ?_, related_leaf rfl⟩
    rw [ofValue_of_not_dict _ _ _ hkind, MarshallRegistry.carry_moved hm]
    rfl
  | dict entries ih =>
    obtain ⟨m, fs, hm, hfs, rfl⟩ := ofValue_eq_dict hv
    -- whether a key repeats is up to the entries, so both ways stop at the same one
    have hfields : ∀ {seen : List String} {fs : List Variable},
        ofEntries registry path seen entries = .ok fs →
        ∃ gs, ofEntries registry path' seen entries = .ok gs ∧
          List.Forall₂ (Related Node.Moved) fs gs := by
      clear hv hfs hm
      induction entries with
      | nil =>
        intro seen fs hfs
        cases hfs
        exact ⟨[], rfl, .nil⟩
      | cons e entries ihs =>
        obtain ⟨key, value⟩ := e
        rw [List.forall_mem_cons] at ih
        intro seen fs hfs
        rw [ofEntries] at hfs ⊢
        by_cases hseen : seen.contains key
        · rw [if_pos hseen] at hfs
          cases hfs
        rw [if_neg hseen] at hfs ⊢
        obtain ⟨f, hf, hfs⟩ := bind_eq_ok_iff.mp hfs
        obtain ⟨fs, hfs', hfs⟩ := bind_eq_ok_iff.mp hfs
        cases hfs
        obtain ⟨g, hg, hfg⟩ := ih.1 hf (subpath path' key) key
        obtain ⟨gs, hgs, hrel⟩ := ihs ih.2 hfs'
        rw [← name_of_ofValue hf, rename_self] at hfg
        exact ⟨g :: gs, by rw [hg, hgs]; rfl, .cons hfg hrel⟩
    obtain ⟨gs, hgs, hrel⟩ := hfields hfs
    refine ⟨dict { name := name', path := path', marshall := m } gs, ?_, related_dict rfl hrel⟩
    rw [ofValue, MarshallRegistry.carry_moved hm, hgs]
    rfl

end Variable

/-- What a value becomes in a seat. -/
def Seat.take? (registry : MarshallRegistry) (s : Seat) (h : HostValue) : Option Variable :=
  (Variable.ofValue registry "" "" h).toOption.bind fun v ↦ (s.bind v).result?

theorem Seat.bind_eq (s : Seat) {v : Variable} (h : v.name = "" ∨ v.name = s.name) :
    s.bind v = (v.mapNode fun n ↦ { n with name := s.name, paramIndex? := s.index? }).bindTo s.name
      s.target := by
  have hroot : (if v.name.isEmpty then s.name else v.name) = s.name := Variable.rootName_of_name h
  rw [bind, Variable.bindRoot, hroot]

/-- **A value is at home in its seat** by whatever way it came: as the variable of no name or of the
seat's name, on any path. -/
theorem Seat.bind_ofValue (registry : MarshallRegistry) (s : Seat) (h : HostValue)
    {path name : String} (hname : name = "" ∨ name = s.name) :
    ((Variable.ofValue registry path name h).toOption.bind fun v ↦ (s.bind v).result?) =
      s.take? registry h := by
  rw [take?]
  cases hw : Variable.ofValue registry "" "" h with
  | error e =>
    cases hv : Variable.ofValue registry path name h with
    | error e' => rfl
    | ok v =>
      obtain ⟨w, hw', -⟩ := Variable.ofValue_moved hv "" ""
      rw [hw] at hw'
      cases hw'
  | ok w =>
    obtain ⟨v, hv, hrel⟩ := Variable.ofValue_moved hw path name
    rw [hv]
    have hvname : v.name = "" ∨ v.name = s.name := Variable.name_of_ofValue hv ▸ hname
    have hwname : w.name = "" ∨ w.name = s.name := Or.inl (Variable.name_of_ofValue hw)
    change (s.bind v).result? = (s.bind w).result?
    rw [s.bind_eq hvname, s.bind_eq hwname]
    refine (Variable.bindTo_retargeted (Variable.Related.imp ?_ fun _ _ ↦ Node.Moved.retargeted)
      _ _).symm
    have hset := hrel.mapNode (f := fun n ↦ { n with name := s.name, paramIndex? := s.index? })
      fun n m hm ↦ by rw [Node.Moved, hm]
    rwa [Variable.rename, Variable.mapNode_mapNode] at hset

/-! ## Arguments and variables -/

namespace Call

variable {registry : MarshallRegistry} {f : Function}

theorem ofKeywords_eq_ok_iff {seen : List String} {kwargs : List (String × HostValue)}
    {vs : List Variable} : ofKeywords registry seen kwargs = .ok vs ↔
      kwargs.mapM (fun e ↦ (Variable.ofValue registry e.1 e.1 e.2).toOption) = some vs ∧
        (kwargs.map (·.1)).Nodup ∧ ∀ e ∈ kwargs, e.1 ∉ seen := by
  induction kwargs generalizing seen vs with
  | nil => simp [ofKeywords]
  | cons e kwargs ih =>
    rw [ofKeywords, option_mapM_cons, List.map_cons, List.nodup_cons, List.forall_mem_cons]
    by_cases hseen : e.1 ∈ seen
    · simp [hseen]
    rw [if_neg (by simpa using hseen), bind_eq_ok_iff]
    constructor
    · rintro ⟨v, hv, h⟩
      obtain ⟨ws, hws, h⟩ := bind_eq_ok_iff.mp h
      cases h
      obtain ⟨hws, hnodup, hunseen⟩ := ih.mp hws
      rw [Variable.forall_unseen_cons_iff] at hunseen
      refine ⟨?_, ⟨hunseen.1, hnodup⟩, hseen, hunseen.2⟩
      rw [toOption_eq_some_iff.mpr hv, Option.bind_some, hws, Option.map_some]
    · rintro ⟨hvs, ⟨hnot, hnodup⟩, -, hunseen⟩
      obtain ⟨v, hv, hvs⟩ := Option.bind_eq_some_iff.mp hvs
      obtain ⟨ws, hws, rfl⟩ := Option.map_eq_some_iff.mp hvs
      refine ⟨v, toOption_eq_some_iff.mp hv, bind_eq_ok_iff.mpr ⟨ws, ?_, rfl⟩⟩
      exact ih.mpr ⟨hws, hnodup, Variable.forall_unseen_cons_iff.mpr ⟨hnot, hunseen⟩⟩

theorem ofArguments_eq_ok_iff {a : Arguments} {c : Call} : ofArguments registry a = .ok c ↔
    a.args.mapM (fun v ↦ (Variable.ofValue registry "" "" v).toOption) = some c.args ∧
      a.kwargs.mapM (fun e ↦ (Variable.ofValue registry e.1 e.1 e.2).toOption) = some c.kwargs ∧
        (a.kwargs.map (·.1)).Nodup ∧ c.function? = none := by
  have hkeywords : ofKeywords registry [] a.kwargs = .ok c.kwargs ↔
      a.kwargs.mapM (fun e ↦ (Variable.ofValue registry e.1 e.1 e.2).toOption) = some c.kwargs ∧
        (a.kwargs.map (·.1)).Nodup := by
    rw [ofKeywords_eq_ok_iff]
    simp
  rw [← and_assoc (a := _ = some c.kwargs), ← hkeywords, ← toOption_mapM, toOption_eq_some_iff,
    ofArguments, bind_eq_ok_iff]
  simp only [bind_eq_ok_iff]
  constructor
  · rintro ⟨args, hargs, kwargs, hkwargs, h⟩
    cases h
    exact ⟨hargs, hkwargs, rfl⟩
  · rintro ⟨hargs, hkwargs, hf⟩
    refine ⟨c.args, hargs, c.kwargs, hkwargs, ?_⟩
    rw [← hf]
    rfl

end Call

/-! ## Passings -/

/-- A value on its way into a call: its seat, the value, and the override for it. -/
structure Passing where
  seat : Seat
  value : HostValue
  override? : Option Override

/-- The root that a passing ends in, with the pins of its override. -/
def Passing.root? (registry : MarshallRegistry) (x : Passing) : Option Variable :=
  (x.seat.take? registry x.value).bind (Variable.designate? x.override?)

theorem Passing.name_of_root? {registry : MarshallRegistry} {x : Passing} {w : Variable}
    (h : x.root? registry = some w) : w.name = x.seat.name := by
  obtain ⟨u, hu, hw⟩ := Option.bind_eq_some_iff.mp h
  obtain ⟨v, hv, hu⟩ := Option.bind_eq_some_iff.mp hu
  have hname : v.name = "" := Variable.name_of_ofValue (toOption_eq_some_iff.mp hv)
  refine (Variable.related_of_designate? hw).node.sameSeat.name.trans ?_
  exact (Variable.seated_of_bindRoot (Or.inl hname) hu).1.1

/-- Positional arguments pass to the parameters from position `index` on, with the overrides in
order. -/
def positionalPassing (index : Nat) :
    List HostValue → List Parameter → List Override → List Passing
  | x :: xs, p :: ps, os =>
    ⟨⟨p.name, ⟨p.type, p.modifiers⟩, some index⟩, x, os.head?⟩ ::
      positionalPassing (index + 1) xs ps os.tail
  | _, _, _ => []

/-- Keyword arguments pass to what their keywords name, with the overrides of the same names. -/
def keywordPassing (f : Function) (kwargs : List (String × HostValue))
    (os : List (String × Override)) : List Passing :=
  kwargs.filterMap fun e ↦ (f.seat? e.1).map fun ti ↦
    ⟨⟨e.1, ti.1, ti.2⟩, e.2, Override.entry? os e.1⟩

namespace Call

variable {registry : MarshallRegistry} {f : Function}

/-- Positional arguments end in the roots of their passings. -/
theorem positional_iff {index : Nat} {xs : List HostValue} {ps : List Parameter}
    {os : List Override} (hlen : xs.length ≤ ps.length) {ws : List Variable} :
    (∃ vs us, xs.mapM (fun x ↦ (Variable.ofValue registry "" "" x).toOption) = some vs ∧
      ((positionalSeating index vs ps).mapM fun vs ↦ (vs.2.bind vs.1).result?) = some us ∧
        designatePositional? us os = some ws) ↔
      (positionalPassing index xs ps os).mapM (Passing.root? registry) = some ws := by
  induction xs generalizing index ps os ws with
  | nil =>
    constructor
    · rintro ⟨vs, us, hvs, hus, hws⟩
      cases hvs
      cases hus
      cases hws
      rfl
    · intro h
      cases h
      exact ⟨[], [], rfl, rfl, rfl⟩
  | cons x xs ih =>
    rcases ps with _ | ⟨p, ps⟩
    · cases hlen
    have hlen := Nat.le_of_succ_le_succ hlen
    rw [positionalPassing, option_mapM_cons, option_mapM_cons, Passing.root?, Seat.take?]
    constructor
    · rintro ⟨_, _, hvs, hus, hws⟩
      obtain ⟨v, vs, hv, hvs', rfl⟩ := bind_map_cons_eq_some_iff.mp hvs
      rw [positionalSeating_cons, option_mapM_cons] at hus
      obtain ⟨u, us, hu, hus', rfl⟩ := bind_map_cons_eq_some_iff.mp hus
      rw [designatePositional?] at hws
      obtain ⟨w, ws, hw, hws', rfl⟩ := bind_map_cons_eq_some_iff.mp hws
      have hrest := (ih hlen).mp ⟨vs, us, hvs', hus', hws'⟩
      refine bind_map_cons_eq_some_iff.mpr ⟨w, ws, ?_, hrest, rfl⟩
      rw [hv, Option.bind_some, hu, Option.bind_some, hw]
    · intro h
      obtain ⟨w, ws, hw, hws, rfl⟩ := bind_map_cons_eq_some_iff.mp h
      obtain ⟨u, hu, hw⟩ := Option.bind_eq_some_iff.mp hw
      obtain ⟨v, hv, hu⟩ := Option.bind_eq_some_iff.mp hu
      obtain ⟨vs, us, hvs, hus, hws⟩ := (ih hlen).mpr hws
      refine ⟨v :: vs, u :: us, bind_map_cons_eq_some_iff.mpr ⟨v, vs, hv, hvs, rfl⟩, ?_, ?_⟩
      · rw [positionalSeating_cons, option_mapM_cons]
        exact bind_map_cons_eq_some_iff.mpr ⟨u, us, hu, hus, rfl⟩
      · rw [designatePositional?]
        exact bind_map_cons_eq_some_iff.mpr ⟨w, ws, hw, hws, rfl⟩

/-- The name of a root in a seat that is named as it. -/
theorem name_of_bind {s : Seat} {v u : Variable} (hname : v.name = s.name)
    (h : (s.bind v).result? = some u) : u.name = s.name :=
  (Variable.seated_of_bindRoot (Or.inr hname) h).1.1

theorem keyword_iff {kwargs : List (String × HostValue)} {os : List (String × Override)}
    (hseats : ∀ e ∈ kwargs, (f.seat? e.1).isSome) {ws : List Variable} :
    (∃ vs us, kwargs.mapM (fun e ↦ (Variable.ofValue registry e.1 e.1 e.2).toOption) = some vs ∧
      ((keywordSeating f vs).mapM fun vs ↦ (vs.2.bind vs.1).result?) = some us ∧
        (us.mapM fun u ↦ u.designate? <| Override.entry? os u.name) = some ws) ↔
      (keywordPassing f kwargs os).mapM (Passing.root? registry) = some ws := by
  induction kwargs generalizing ws with
  | nil =>
    constructor
    · rintro ⟨vs, us, hvs, hus, hws⟩
      cases hvs
      cases hus
      cases hws
      rfl
    · intro h
      cases h
      exact ⟨[], [], rfl, rfl, rfl⟩
  | cons e kwargs ih =>
    rw [List.forall_mem_cons] at hseats
    obtain ⟨ti, hseat⟩ := Option.isSome_iff_exists.mp hseats.1
    have hcons : keywordPassing f (e :: kwargs) os =
        ⟨⟨e.1, ti.1, ti.2⟩, e.2, Override.entry? os e.1⟩ :: keywordPassing f kwargs os := by
      simp [keywordPassing, hseat]
    have htake := @Seat.bind_ofValue registry ⟨e.1, ti.1, ti.2⟩ e.2 e.1 e.1 (Or.inr rfl)
    rw [hcons, option_mapM_cons, option_mapM_cons, Passing.root?, ← htake]
    constructor
    · rintro ⟨_, _, hvs, hus, hws⟩
      obtain ⟨v, vs, hv, hvs', rfl⟩ := bind_map_cons_eq_some_iff.mp hvs
      have hname : v.name = e.1 := Variable.name_of_ofValue (toOption_eq_some_iff.mp hv)
      rw [keywordSeating_cons (hname ▸ hseat), option_mapM_cons] at hus
      obtain ⟨u, us, hu, hus', rfl⟩ := bind_map_cons_eq_some_iff.mp hus
      rw [option_mapM_cons, name_of_bind rfl hu, hname] at hws
      obtain ⟨w, ws, hw, hws', rfl⟩ := bind_map_cons_eq_some_iff.mp hws
      rw [hname] at hu
      have hrest := (ih hseats.2).mp ⟨vs, us, hvs', hus', hws'⟩
      refine bind_map_cons_eq_some_iff.mpr ⟨w, ws, ?_, hrest, rfl⟩
      rw [hv, Option.bind_some, hu, Option.bind_some, hw]
    · intro h
      obtain ⟨w, ws, hw, hws, rfl⟩ := bind_map_cons_eq_some_iff.mp h
      obtain ⟨u, hu, hw⟩ := Option.bind_eq_some_iff.mp hw
      obtain ⟨v, hv, hu⟩ := Option.bind_eq_some_iff.mp hu
      have hname : v.name = e.1 := Variable.name_of_ofValue (toOption_eq_some_iff.mp hv)
      have huname : u.name = e.1 := name_of_bind (s := ⟨e.1, ti.1, ti.2⟩) hname hu
      obtain ⟨vs, us, hvs, hus, hws⟩ := (ih hseats.2).mpr hws
      refine ⟨v :: vs, u :: us, bind_map_cons_eq_some_iff.mpr ⟨v, vs, hv, hvs, rfl⟩, ?_, ?_⟩
      · rw [keywordSeating_cons (hname ▸ hseat), option_mapM_cons, hname]
        exact bind_map_cons_eq_some_iff.mpr ⟨u, us, hu, hus, rfl⟩
      · rw [option_mapM_cons, huname]
        exact bind_map_cons_eq_some_iff.mpr ⟨w, ws, hw, hws, rfl⟩

end Call

/-! ## Admission -/

/-- Overrides suit arguments of a number and with keywords: there are not more positional ones, and
keyword overrides name keywords, each one once. -/
structure Vectorization.Suits (o : Vectorization) (positional : Nat) (keywords : List String) :
    Prop where
  positional_le : o.args.length ≤ positional
  named : ∀ k ∈ o.kwargs.map (·.1), k ∈ keywords
  once : (o.kwargs.map (·.1)).Nodup

/-- The names and numbers of arguments and overrides are right. -/
structure Function.Admits (f : Function) (a : Arguments) (o : Vectorization) : Prop where
  once : (a.kwargs.map (·.1)).Nodup
  accepts : f.Accepts a.args.length (a.kwargs.map (·.1))
  suits : o.Suits a.args.length (a.kwargs.map (·.1))

namespace Call

/-- The number of keyword overrides needs no bound of its own. -/
theorem matches_iff {c : Call} {o : Vectorization} :
    o.Matches c ↔ o.Suits c.args.length (c.kwargs.map (·.name)) := by
  have hkwarg : ∀ k, (c.kwarg? k).isSome ↔ k ∈ c.kwargs.map (·.name) := by
    intro k
    rw [kwarg?, List.find?_isSome, List.mem_map]
    simp
  have hnamed : (∀ e ∈ o.kwargs, (c.kwarg? e.1).isSome) ↔
      ∀ k ∈ o.kwargs.map (·.1), k ∈ c.kwargs.map (·.name) := by
    simp only [hkwarg, List.forall_mem_map]
  rw [Vectorization.Matches, hnamed]
  constructor
  · rintro ⟨hargs, -, hnamed, honce⟩
    exact ⟨hargs, hnamed, honce⟩
  · rintro ⟨hargs, hnamed, honce⟩
    refine ⟨hargs, ?_, hnamed, honce⟩
    have hlen := (List.subperm_of_subset honce fun k hk ↦ hnamed k hk).length_le
    rwa [List.length_map, List.length_map] at hlen

theorem names_of_keywords {registry : MarshallRegistry} {kwargs : List (String × HostValue)}
    {vs : List Variable}
    (h : kwargs.mapM (fun e ↦ (Variable.ofValue registry e.1 e.1 e.2).toOption) = some vs) :
    vs.map (·.name) = kwargs.map (·.1) :=
  (map_eq_of_forall₂ ((mapM_eq_some_iff.mp h).imp fun _ _ hv ↦
    (Variable.name_of_ofValue (toOption_eq_some_iff.mp hv)).symm)).symm

/-- Numbers and names of a call that binds are those of the arguments all along, and the function
accepts them. -/
theorem accepts_of_bind {registry : MarshallRegistry} {f : Function} {a : Arguments} {c c' : Call}
    (hargs : a.args.mapM (fun v ↦ (Variable.ofValue registry "" "" v).toOption) = some c.args)
    (hkwargs : a.kwargs.mapM (fun e ↦ (Variable.ofValue registry e.1 e.1 e.2).toOption) =
      some c.kwargs) (h : (c.bind f).result? = some c') :
    f.Accepts a.args.length (a.kwargs.map (·.1)) ∧ c'.args.length = a.args.length ∧
      c'.kwargs.map (·.name) = a.kwargs.map (·.1) := by
  obtain ⟨harity, hbound, -⟩ := bind_eq_some_iff.mp h
  have haccepts := checkArity_eq_ok_iff.mp harity
  have hlen : c'.args.length = c.args.length := by
    rw [← (mapM_eq_some_iff.mp hbound).length_eq, length_positionalSeating haccepts.positional_le]
  have hkeys := (bindsTo_of_bind h).names (seats_of_checkArity harity).2
  rw [← (mapM_eq_some_iff.mp hargs).length_eq, names_of_keywords hkwargs] at haccepts
  rw [hlen, hkeys, names_of_keywords hkwargs, ← (mapM_eq_some_iff.mp hargs).length_eq]
  exact ⟨haccepts, rfl, rfl⟩

/-- **How a call comes about.** If names and numbers are right, each root is what its passing ends
in, and nothing else matters. -/
theorem designated?_eq_some_iff_passing {lookup : Lookup} {f : Function} {a : Arguments}
    {o : Vectorization} {c : Call} : designated? lookup f a o = some c ↔ f.Admits a o ∧
      (positionalPassing 0 a.args f.params o.args).mapM (Passing.root? lookup.registry) =
        some c.args ∧
      (keywordPassing f a.kwargs o.kwargs).mapM (Passing.root? lookup.registry) = some c.kwargs ∧
      c.function? = some f := by
  rw [designated?_eq_some_iff]
  constructor
  · rintro ⟨c₀, c₁, hc₀, hc₁, hmatches, hc⟩
    obtain ⟨hargs₀, hkwargs₀, honce, -⟩ := ofArguments_eq_ok_iff.mp hc₀
    obtain ⟨harity, hargs₁, hkwargs₁, hf⟩ := bind_eq_some_iff.mp hc₁
    obtain ⟨hargs, hkwargs, hf'⟩ := withVariables?_eq_some_iff.mp hc
    obtain ⟨haccepts, hlen, hkeys⟩ := accepts_of_bind hargs₀ hkwargs₀ hc₁
    rw [matches_iff, hlen, hkeys] at hmatches
    refine ⟨⟨honce, haccepts, hmatches⟩, ?_, ?_, hf'.trans hf⟩
    · exact (positional_iff haccepts.positional_le).mp ⟨_, _, hargs₀, hargs₁, hargs⟩
    · refine (keyword_iff fun e he ↦ ?_).mp ⟨_, _, hkwargs₀, hkwargs₁, hkwargs⟩
      exact haccepts.isSome_seat? e.1 (List.mem_map_of_mem he)
  · rintro ⟨hadmits, hargs, hkwargs, hf⟩
    obtain ⟨args₀, args₁, hargs₀, hargs₁, hargs⟩ :=
      (positional_iff hadmits.accepts.positional_le).mpr hargs
    obtain ⟨kwargs₀, kwargs₁, hkwargs₀, hkwargs₁, hkwargs⟩ := (keyword_iff fun e he ↦
      hadmits.accepts.isSome_seat? e.1 (List.mem_map_of_mem he)).mpr hkwargs
    have hbind : (bind { args := args₀, kwargs := kwargs₀ } f).result? =
        some { args := args₁, kwargs := kwargs₁, function? := some f } := by
      refine bind_eq_some_iff.mpr ⟨checkArity_eq_ok_iff.mpr ?_, hargs₁, hkwargs₁, rfl⟩
      rw [← (mapM_eq_some_iff.mp hargs₀).length_eq, names_of_keywords hkwargs₀]
      exact hadmits.accepts
    obtain ⟨-, hlen, hkeys⟩ := accepts_of_bind hargs₀ hkwargs₀ hbind
    refine ⟨_, _, ofArguments_eq_ok_iff.mpr ⟨hargs₀, hkwargs₀, hadmits.once, rfl⟩, hbind, ?_,
      withVariables?_eq_some_iff.mpr ⟨hargs, hkwargs, hf⟩⟩
    rw [matches_iff, hlen, hkeys]
    exact hadmits.suits

/-- All arguments with their seats, positional ones first. -/
def passings (f : Function) (a : Arguments) (o : Vectorization) : List Passing :=
  positionalPassing 0 a.args f.params o.args ++ keywordPassing f a.kwargs o.kwargs

theorem roots_of_designated? {lookup : Lookup} {f : Function} {a : Arguments} {o : Vectorization}
    {c : Call} (h : designated? lookup f a o = some c) :
    (passings f a o).mapM (Passing.root? lookup.registry) = some c.roots := by
  obtain ⟨-, hargs, hkwargs, -⟩ := designated?_eq_some_iff_passing.mp h
  rw [mapM_eq_some_iff] at hargs hkwargs ⊢
  exact List.rel_append hargs hkwargs

/-- There is a call with the roots that passings end in. -/
theorem exists_designated? {lookup : Lookup} {f : Function} {a : Arguments} {o : Vectorization}
    (hadmits : f.Admits a o) {ws : List Variable}
    (h : (passings f a o).mapM (Passing.root? lookup.registry) = some ws) :
    ∃ c, designated? lookup f a o = some c ∧ c.roots = ws := by
  obtain ⟨args, kwargs, hargs, hkwargs, rfl⟩ := exists_append_of_forall₂ (mapM_eq_some_iff.mp h)
  exact ⟨{ args, kwargs, function? := some f }, designated?_eq_some_iff_passing.mpr
    ⟨hadmits, mapM_eq_some_iff.mpr hargs, mapM_eq_some_iff.mpr hkwargs, rfl⟩, rfl⟩

end Call

end KernelCall
