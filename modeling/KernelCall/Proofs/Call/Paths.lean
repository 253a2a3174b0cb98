import KernelCall.Proofs.Call.Clash
import KernelCall.Proofs.Code.Scope

/-!
# Paths of bound calls

Each node of a variable is reached by the names from its root. In a bound call these names, joined by
dots, are the path of the node. Routes differ, because roots have different names and so have the
fields of a dictionary; and as long as no name has a dot in it, paths differ with the routes.
-/

namespace KernelCall

namespace Variable

/-! ## Routes -/

mutual

/-- The nodes of a variable, each with the names that lead to it from the root on. -/
def routes : Variable → List (List String × Node)
  | leaf n => [([n.name], n)]
  | dict n fs => ([n.name], n) :: (routesOf fs).map fun r ↦ (n.name :: r.1, r.2)

def routesOf : List Variable → List (List String × Node)
  | [] => []
  | v :: vs => v.routes ++ routesOf vs

end

theorem routesOf_eq_flatMap (vs : List Variable) : routesOf vs = vs.flatMap routes := by
  induction vs with
  | nil => rfl
  | cons v vs ih => rw [routesOf, ih, List.flatMap_cons]

theorem routes_dict (n : Node) (fs : List Variable) : (dict n fs).routes =
    ([n.name], n) :: (fs.flatMap routes).map fun r ↦ (n.name :: r.1, r.2) := by
  rw [routes, routesOf_eq_flatMap]

theorem map_snd_routes (v : Variable) : v.routes.map Prod.snd = v.nodes := by
  induction v with
  | leaf n => rfl
  | dict n fs ih =>
    have hfields : (fs.flatMap routes).map Prod.snd = fs.flatMap nodes := by
      rw [List.map_flatMap, List.flatMap_congr ih]
    rw [routes_dict, nodes_dict, List.map_cons, List.map_map, ← hfields]
    rfl

theorem head?_of_mem_routes {v : Variable} {r : List String × Node} (h : r ∈ v.routes) :
    r.1.head? = some v.name := by
  cases v with
  | leaf n =>
    rw [List.mem_singleton.mp h]
    rfl
  | dict n fs =>
    rw [routes_dict, List.mem_cons] at h
    rcases h with rfl | h
    · rfl
    · obtain ⟨r, -, rfl⟩ := List.mem_map.mp h
      rfl

/-- The routes of variables with different names are different if those of each one are. -/
theorem nodup_flatMap_routes {vs : List Variable} (hnames : (vs.map (·.name)).Nodup)
    (h : ∀ v ∈ vs, (v.routes.map Prod.fst).Nodup) :
    ((vs.flatMap routes).map Prod.fst).Nodup := by
  rw [List.map_flatMap, List.nodup_flatMap]
  refine ⟨h, (List.pairwise_map.mp hnames).imp fun {v w} hne ↦ ?_⟩
  intro names hv hw
  obtain ⟨r, hr, rfl⟩ := List.mem_map.mp hv
  obtain ⟨r', hr', heq⟩ := List.mem_map.mp hw
  have hhead := head?_of_mem_routes hr'
  rw [heq, head?_of_mem_routes hr] at hhead
  exact hne (Option.some.inj hhead)

/-- **Routes differ.** -/
theorem Distinct.nodup_routes {v : Variable} (h : v.Distinct) : (v.routes.map Prod.fst).Nodup := by
  induction v with
  | leaf n => exact List.nodup_singleton _
  | dict n fs ih =>
    have hfields : ((fs.flatMap routes).map Prod.fst).Nodup := by
      refine nodup_flatMap_routes (h n fs (self_mem_parts _)) fun f hf ↦ ih f hf fun m gs hm ↦ ?_
      exact h m gs (mem_parts_dict.mpr (Or.inr ⟨f, hf, hm⟩))
    have hinner : ((fs.flatMap routes).map fun r ↦ (n.name :: r.1, r.2)).map Prod.fst =
        ((fs.flatMap routes).map Prod.fst).map (n.name :: ·) := by
      rw [List.map_map, List.map_map]
      rfl
    rw [routes_dict, List.map_cons, hinner, List.nodup_cons]
    constructor
    · intro hmem
      obtain ⟨names, hnames, heq⟩ := List.mem_map.mp hmem
      obtain ⟨r, hr, rfl⟩ := List.mem_map.mp hnames
      obtain ⟨f, -, hf⟩ := List.mem_flatMap.mp hr
      -- the route of a field is not empty
      have hhead := head?_of_mem_routes hf
      rw [(List.cons.inj heq).2] at hhead
      cases hhead
    · exact hfields.map (List.cons_injective)

/-! ## Paths -/

theorem intercalate_subpath (path name : String) (names : List String) :
    ".".intercalate (subpath path name :: names) = ".".intercalate (path :: name :: names) := by
  cases names with
  | nil => simp [subpath, String.intercalate_cons_cons, String.append_assoc]
  | cons x xs =>
    simp only [subpath, String.intercalate_cons_cons, String.append_assoc]

/-- A bound variable is reached by the path it is bound to, its parts by paths that start there. -/
theorem BoundTo.path_of_mem_routes {v : Variable} {path : String} {target : Target}
    (h : v.BoundTo path target) {r : List String × Node} (hr : r ∈ v.routes) :
    ∃ names, r.1 = v.name :: names ∧ r.2.path = ".".intercalate (path :: names) := by
  induction v generalizing path target r with
  | leaf n =>
    rw [List.mem_singleton.mp hr]
    exact ⟨[], rfl, h.1⟩
  | dict n fs ih =>
    obtain ⟨⟨hpath, -⟩, hfields⟩ := boundTo_dict_iff.mp h
    rw [routes_dict, List.mem_cons] at hr
    rcases hr with rfl | hr
    · exact ⟨[], rfl, hpath⟩
    · obtain ⟨s, hs, rfl⟩ := List.mem_map.mp hr
      obtain ⟨f, hf, hs⟩ := List.mem_flatMap.mp hs
      obtain ⟨type, -, hbound⟩ := hfields f hf
      obtain ⟨names, hnames, hspath⟩ := ih f hf hbound hs
      refine ⟨f.name :: names, by rw [hnames]; rfl, ?_⟩
      rw [hspath, intercalate_subpath]

/-- What holds of the name of a bound variable and of all names of fields in its type holds of every
name in it. -/
theorem BoundTo.forall_names {P : String → Prop} {v : Variable} {path : String} {target : Target}
    (h : v.BoundTo path target) (hfields : ∀ name ∈ target.type.fieldNames, P name)
    (hname : P v.name) : ∀ n ∈ v.nodes, P n.name := by
  induction v generalizing path target with
  | leaf n => exact List.forall_mem_singleton.mpr hname
  | dict n fs ih =>
    obtain ⟨-, hbound⟩ := boundTo_dict_iff.mp h
    rw [nodes_dict, List.forall_mem_cons, List.forall_mem_flatMap]
    refine ⟨hname, fun f hf ↦ ?_⟩
    obtain ⟨type, htype, hf'⟩ := hbound f hf
    obtain ⟨hmem, hsub⟩ := KernelType.mem_fieldNames_of_field? htype
    exact ih f hf hf' (fun name hn ↦ hfields name (hsub hn)) (hfields f.name hmem)

theorem exists_node_of_mem_route {v : Variable} {r : List String × Node} (hr : r ∈ v.routes)
    {name : String} (hname : name ∈ r.1) : ∃ n ∈ v.nodes, n.name = name := by
  induction v generalizing r with
  | leaf n =>
    rw [List.mem_singleton.mp hr, List.mem_singleton] at hname
    exact ⟨n, List.mem_singleton_self n, hname.symm⟩
  | dict n fs ih =>
    rw [routes_dict, List.mem_cons] at hr
    rcases hr with rfl | hr
    · exact ⟨n, node_mem_nodes_dict n fs, (List.mem_singleton.mp hname).symm⟩
    · obtain ⟨s, hs, rfl⟩ := List.mem_map.mp hr
      obtain ⟨f, hf, hs⟩ := List.mem_flatMap.mp hs
      rcases List.mem_cons.mp hname with rfl | hname
      · exact ⟨n, node_mem_nodes_dict n fs, rfl⟩
      · obtain ⟨m, hm, hmname⟩ := ih f hf hs hname
        exact ⟨m, mem_nodes_of_field hf hm, hmname⟩

end Variable

/-- Names without dots can be told from what they are joined to. -/
theorem intercalate_dot_inj {names names' : List String} (hne : names ≠ []) (hne' : names' ≠ [])
    (h : ∀ name ∈ names, '.' ∉ name.toList) (h' : ∀ name ∈ names', '.' ∉ name.toList)
    (heq : ".".intercalate names = ".".intercalate names') : names = names' := by
  have hsplit : ∀ {names : List String}, names ≠ [] → (∀ name ∈ names, '.' ∉ name.toList) →
      (".".intercalate names).toList.splitOn '.' = names.map String.toList := by
    intro names hne h
    rw [String.toList_intercalate]
    exact List.splitOn_intercalate '.' (List.forall_mem_map.mpr h) (by simpa using hne)
  have hlists : names.map String.toList = names'.map String.toList := by
    rw [← hsplit hne h, ← hsplit hne' h', heq]
  exact List.map_injective_iff.mpr (fun _ _ ↦ String.toList_inj.mp) hlists

namespace Call

/-- All nodes of a call, each with the names that lead to it from its root on. -/
def routes (c : Call) : List (List String × Node) := c.roots.flatMap Variable.routes

theorem map_snd_routes (c : Call) : c.routes.map Prod.snd = c.nodes := by
  rw [routes, List.map_flatMap, nodes, List.flatMap_congr fun v _ ↦ v.map_snd_routes]

variable {f : Function} {c : Call}

theorem name_of_seat? {keyword : String} (h : (f.seat? keyword).isSome) :
    keyword = receiverKeyword ∨ keyword = resultKeyword ∨ ∃ p ∈ f.params, p.name = keyword := by
  by_cases hreceiver : keyword = receiverKeyword
  · exact Or.inl hreceiver
  by_cases hresult : keyword = resultKeyword
  · exact Or.inr (Or.inl hresult)
  · rw [Function.seat?, if_neg (by rwa [beq_iff_eq]), if_neg (by rwa [beq_iff_eq]),
      Option.isSome_map] at h
    obtain ⟨⟨index, p⟩, hp⟩ := Option.isSome_iff_exists.mp h
    obtain ⟨hname, hmem⟩ := Function.name_of_param? hp
    exact Or.inr (Or.inr ⟨p, List.mem_of_getElem? hmem, hname⟩)

theorem Bound.dot_not_mem_name (h : c.Bound f) (hparams : ∀ p ∈ f.params, '.' ∉ p.name.toList)
    (hfields : ∀ t ∈ f.types, ∀ name ∈ t.fieldNames, '.' ∉ name.toList) :
    ∀ v ∈ c.roots, ∀ n ∈ v.nodes, '.' ∉ n.name.toList := by
  intro v hv
  rcases List.mem_append.mp hv with hv | hv
  · obtain ⟨i, hi⟩ := List.mem_iff_getElem?.mp hv
    obtain ⟨p, hp, hname, -, hbound⟩ := h.positional i v hi
    have hp := List.mem_of_getElem? hp
    have htype : p.type ∈ f.types :=
      List.mem_append_left _ (List.mem_append_left _ (List.mem_map_of_mem hp))
    exact hbound.forall_names (P := ('.' ∉ ·.toList)) (hfields _ htype) (hname ▸ hparams p hp)
  · obtain ⟨target, index?, hseat, -, -, hbound⟩ := h.keyword v hv
    refine hbound.forall_names (P := ('.' ∉ ·.toList))
      (hfields _ (Function.type_mem_of_seat? hseat)) ?_
    have hname := name_of_seat? (Option.isSome_iff_exists.mpr ⟨_, hseat⟩)
    rcases hname with hname | hname | ⟨p, hp, hname⟩
    · rw [hname]
      decide
    · rw [hname]
      decide
    · exact hname ▸ hparams p hp

/-- **Paths join names.** -/
theorem Bound.path_of_mem_routes (h : c.Bound f) {r : List String × Node} (hr : r ∈ c.routes) :
    r.2.path = ".".intercalate r.1 := by
  obtain ⟨v, hv, hr⟩ := List.mem_flatMap.mp hr
  have hbound : ∃ target, v.BoundTo v.name target := by
    rcases List.mem_append.mp hv with hv | hv
    · obtain ⟨i, hi⟩ := List.mem_iff_getElem?.mp hv
      obtain ⟨p, -, hname, -, hbound⟩ := h.positional i v hi
      exact ⟨_, hname ▸ hbound⟩
    · obtain ⟨target, index?, -, -, -, hbound⟩ := h.keyword v hv
      exact ⟨target, hbound⟩
  obtain ⟨target, hbound⟩ := hbound
  obtain ⟨names, hnames, hpath⟩ := hbound.path_of_mem_routes hr
  rw [hpath, hnames]

/-- **Paths are unique.** Let the parameters of a function have different names that are not reserved,
and let neither these nor the names of fields in its types have a dot in them. Once a fresh call is
bound to it, the path of every node, at whatever depth, consists of the names that lead to the node
from its root, with dots between them, and no two nodes have one path. -/
theorem nodup_paths_of_bind {registry : MarshallRegistry} {a : Arguments} {start : Call}
    (hstart : ofArguments registry a = .ok start) (hf : f.Named)
    (hparams : ∀ p ∈ f.params, '.' ∉ p.name.toList)
    (hfields : ∀ t ∈ f.types, ∀ name ∈ t.fieldNames, '.' ∉ name.toList)
    (hbind : (start.bind f).result? = some c) :
    c.routes.map Prod.snd = c.nodes ∧ (∀ r ∈ c.routes, r.2.path = ".".intercalate r.1) ∧
      (c.nodes.map (·.path)).Nodup := by
  have hbound : c.Bound f := (bound_of_bind (name_of_mem_args hstart) hbind).1
  have hdistinct : c.Distinct := by
    have hleft := ((Pass.bind f).altered start).distinct (distinct_of_ofArguments hstart)
    rwa [Pass.leave, Pass.run, Progress.state_of_result? hbind] at hleft
  have hpaths : ∀ r ∈ c.routes, r.2.path = ".".intercalate r.1 := fun r hr ↦
    hbound.path_of_mem_routes hr
  have hroutes : (c.routes.map Prod.fst).Nodup :=
    Variable.nodup_flatMap_routes (hbound.nodup_names hdistinct hf)
      fun v hv ↦ (hdistinct.fields v hv).nodup_routes
  have hnames : ∀ names ∈ c.routes.map Prod.fst,
      names ≠ [] ∧ ∀ name ∈ names, '.' ∉ name.toList := by
    rw [List.forall_mem_map]
    intro r hr
    obtain ⟨v, hv, hr⟩ := List.mem_flatMap.mp hr
    constructor
    · intro hnil
      have hhead := Variable.head?_of_mem_routes hr
      rw [hnil] at hhead
      cases hhead
    · intro name hname
      obtain ⟨n, hn, rfl⟩ := Variable.exists_node_of_mem_route hr hname
      exact hbound.dot_not_mem_name hparams hfields v hv n hn
  refine ⟨c.map_snd_routes, hpaths, ?_⟩
  have hjoined : c.nodes.map (·.path) = (c.routes.map Prod.fst).map (".".intercalate ·) := by
    rw [← c.map_snd_routes, List.map_map, List.map_map]
    exact List.map_congr_left hpaths
  rw [hjoined]
  refine hroutes.map_on fun names hmem names' hmem' heq ↦ ?_
  exact intercalate_dot_inj (hnames names hmem).1 (hnames names' hmem').1 (hnames names hmem).2
    (hnames names' hmem').2 heq

/-- A kernel that takes a pair of points and a number, and returns a number. -/
def span : Function where
  name := "span"
  params := [
    { name := "points",
      type := .struct "Pair" [("x", .struct "Point" [("x", .scalar .float)] true),
        ("y", .struct "Point" [("x", .scalar .float)] true)] true },
    { name := "x", type := .scalar .float }]
  returnType := some (.scalar .float)

/-- A pair of points by position, all else by keywords. -/
def spanArguments : Arguments where
  args := [.dict [("x", .dict [("x", .float 1)]), ("y", .dict [("x", .float 2)])]]
  kwargs := [("_result", .valueRef (.float 0)), ("x", .float 3)]

/-- Four nodes are called `x`, and each has a path of its own. -/
theorem nodup_paths_span : ∃ start c, ofArguments .builtin spanArguments = .ok start ∧
    (start.bind span).result? = some c ∧ c.routes.map Prod.snd = c.nodes ∧
      (∀ r ∈ c.routes, r.2.path = ".".intercalate r.1) ∧ (c.nodes.map (·.path)).Nodup :=
  ⟨_, _, rfl, rfl, @nodup_paths_of_bind span _ .builtin spanArguments _ rfl
    ⟨by decide, by decide⟩ (by decide) (by decide) rfl⟩

example : ((ofArguments .builtin spanArguments).toOption.bind fun c ↦ (c.bind span).result?).map
    (fun c : Call ↦ c.nodes.map (·.path)) = some ["points", "points.x", "points.x.x", "points.y",
      "points.y.x", "_result", "x"] := by
  decide +kernel

end Call

end KernelCall
