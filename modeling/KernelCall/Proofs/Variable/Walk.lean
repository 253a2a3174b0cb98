import KernelCall.Proofs.Progress
import KernelCall.Variable.Basic

/-!
# Walks over variables

Every pass over a variable changes node after node and leaves the tree of them as it is. `walk?` is
that shape once and for all: a function for the nodes of leaves, and one for the nodes of
dictionaries that may look at the fields after they have been changed.

Two walks in a row are one walk (`walk?_bind_walk?`), provided that what the first one does to a
dictionary can still be read off the fields that the second one has changed. `parts` lists the
variables inside a variable; what a walk leaves is described part by part.
-/

namespace KernelCall

namespace Variable

/-! ## Induction -/

mutual

private theorem induct {motive : Variable → Prop} (hleaf : ∀ n, motive (leaf n))
    (hdict : ∀ n fs, (∀ v ∈ fs, motive v) → motive (dict n fs)) : ∀ v, motive v
  | leaf n => hleaf n
  | dict n fs => hdict n fs (inductFields hleaf hdict fs)

private theorem inductFields {motive : Variable → Prop} (hleaf : ∀ n, motive (leaf n))
    (hdict : ∀ n fs, (∀ v ∈ fs, motive v) → motive (dict n fs)) :
    ∀ fs : List Variable, ∀ v ∈ fs, motive v
  | [] => by simp
  | v :: vs => List.forall_mem_cons.mpr ⟨induct hleaf hdict v, inductFields hleaf hdict vs⟩

end

/-- Induction over a variable: what holds of a dictionary once it holds of all its fields, and holds
of leaves, holds of every variable. -/
@[elab_as_elim, induction_eliminator]
theorem fieldwise {motive : Variable → Prop} (leaf : ∀ n, motive (leaf n))
    (dict : ∀ n fs, (∀ v ∈ fs, motive v) → motive (dict n fs)) (v : Variable) : motive v :=
  induct leaf dict v

theorem mem_nodes_of_field {n m : Node} {fs : List Variable} {v : Variable} (hv : v ∈ fs)
    (hm : m ∈ v.nodes) : m ∈ (dict n fs).nodes := by
  rw [nodes_dict]
  exact List.mem_cons_of_mem _ (List.mem_flatMap.mpr ⟨v, hv, hm⟩)

theorem node_mem_nodes_dict (n : Node) (fs : List Variable) : n ∈ (dict n fs).nodes := by
  rw [nodes_dict]
  exact List.mem_cons_self

/-! ## Walks -/

mutual

/-- Changes the nodes of leaves by `onLeaf`, and the node of a dictionary by `onDict` once its
fields have been changed. -/
def walk? (onLeaf : Node → Option Node) (onDict : List Variable → Node → Option Node) :
    Variable → Option Variable
  | leaf n => (onLeaf n).map leaf
  | dict n fs => (walkFields? onLeaf onDict fs).bind fun fs ↦ (onDict fs n).map (dict · fs)

def walkFields? (onLeaf : Node → Option Node) (onDict : List Variable → Node → Option Node) :
    List Variable → Option (List Variable)
  | [] => some []
  | v :: vs =>
    (walk? onLeaf onDict v).bind fun v ↦ (walkFields? onLeaf onDict vs).map (v :: ·)

end

section

variable {l l₁ l₂ : Node → Option Node} {d d₁ d₂ : List Variable → Node → Option Node}

theorem walkFields?_eq_mapM (vs : List Variable) : walkFields? l d vs = vs.mapM (walk? l d) := by
  induction vs with
  | nil => rfl
  | cons v vs ih => rw [walkFields?, ih, option_mapM_cons]

theorem walk?_leaf (n : Node) : (leaf n).walk? l d = (l n).map leaf := rfl

theorem walk?_dict (n : Node) (fs : List Variable) :
    (dict n fs).walk? l d = (fs.mapM (walk? l d)).bind fun fs ↦ (d fs n).map (dict · fs) := by
  rw [walk?, walkFields?_eq_mapM]

theorem walk?_leaf_eq_some_iff {n : Node} {w : Variable} :
    (leaf n).walk? l d = some w ↔ ∃ m, l n = some m ∧ w = leaf m := by
  rw [walk?_leaf, Option.map_eq_some_iff]
  simp only [eq_comm]

theorem walk?_dict_eq_some_iff {n : Node} {fs : List Variable} {w : Variable} :
    (dict n fs).walk? l d = some w ↔
      ∃ ws m, fs.mapM (walk? l d) = some ws ∧ d ws n = some m ∧ w = dict m ws := by
  rw [walk?_dict, Option.bind_eq_some_iff]
  constructor
  · rintro ⟨ws, hws, h⟩
    obtain ⟨m, hm, rfl⟩ := Option.map_eq_some_iff.mp h
    exact ⟨ws, m, hws, hm, rfl⟩
  · rintro ⟨ws, m, hws, hm, rfl⟩
    exact ⟨ws, hws, by rw [hm, Option.map_some]⟩

/-- **Two walks are one.** -/
theorem walk?_bind_walk?
    (h : ∀ fs ws n, fs.mapM (walk? l₂ d₂) = some ws → d₁ fs n = d₁ ws n) (v : Variable) :
    (v.walk? l₁ d₁).bind (walk? l₂ d₂) =
      v.walk? (fun n ↦ (l₁ n).bind l₂) fun fs n ↦ (d₁ fs n).bind (d₂ fs) := by
  induction v with
  | leaf n =>
    rw [walk?_leaf, walk?_leaf]
    cases l₁ n <;> rfl
  | dict n fs ih =>
    rw [walk?_dict, walk?_dict, ← mapM_congr ih, ← mapM_bind_mapM, Option.bind_assoc,
      Option.bind_assoc]
    refine Option.bind_congr fun gs _ ↦ ?_
    rw [Option.bind_map]
    change ((d₁ gs n).bind fun m ↦ walk? l₂ d₂ (dict m gs)) = _
    simp only [walk?_dict]
    rw [bind_bind_map_comm]
    exact Option.bind_congr fun ws hws ↦ by rw [h gs ws n hws]

end

/-! ## Parts -/

mutual

/-- The variables inside a variable, itself first. -/
def parts : Variable → List Variable
  | leaf n => [leaf n]
  | dict n fs => dict n fs :: partsOf fs

def partsOf : List Variable → List Variable
  | [] => []
  | v :: vs => v.parts ++ partsOf vs

end

theorem partsOf_eq_flatMap (vs : List Variable) : partsOf vs = vs.flatMap parts := by
  induction vs with
  | nil => rfl
  | cons v vs ih => rw [partsOf, ih, List.flatMap_cons]

theorem mem_parts_leaf {n : Node} {u : Variable} : u ∈ (leaf n).parts ↔ u = leaf n := by
  rw [parts, List.mem_singleton]

theorem mem_parts_dict {n : Node} {fs : List Variable} {u : Variable} :
    u ∈ (dict n fs).parts ↔ u = dict n fs ∨ ∃ v ∈ fs, u ∈ v.parts := by
  rw [parts, partsOf_eq_flatMap, List.mem_cons, List.mem_flatMap]

theorem self_mem_parts (v : Variable) : v ∈ v.parts := by
  cases v with
  | leaf n => exact mem_parts_leaf.mpr rfl
  | dict n fs => exact mem_parts_dict.mpr (Or.inl rfl)

theorem parts_trans {u v w : Variable} (huv : u ∈ v.parts) (hvw : v ∈ w.parts) : u ∈ w.parts := by
  induction w with
  | leaf n =>
    rw [mem_parts_leaf.mp hvw] at huv
    exact huv
  | dict n fs ih =>
    rcases mem_parts_dict.mp hvw with rfl | ⟨f, hf, hvf⟩
    · exact huv
    · exact mem_parts_dict.mpr (Or.inr ⟨f, hf, ih f hf hvf⟩)

theorem field_mem_parts {n : Node} {fs : List Variable} {f w : Variable} (hf : f ∈ fs)
    (h : dict n fs ∈ w.parts) : f ∈ w.parts :=
  parts_trans (mem_parts_dict.mpr (Or.inr ⟨f, hf, self_mem_parts f⟩)) h

theorem nodes_eq_map_parts (v : Variable) : v.nodes = v.parts.map node := by
  induction v with
  | leaf n => rfl
  | dict n fs ih =>
    rw [nodes_dict, parts, partsOf_eq_flatMap, List.map_cons, List.map_flatMap,
      List.flatMap_congr ih, node_dict]

theorem node_mem_nodes {u v : Variable} (h : u ∈ v.parts) : u.node ∈ v.nodes := by
  rw [nodes_eq_map_parts]
  exact List.mem_map_of_mem h

theorem mem_leaves_iff {n : Node} {v : Variable} : n ∈ v.leaves ↔ leaf n ∈ v.parts := by
  induction v with
  | leaf m =>
    rw [leaves_leaf, List.mem_singleton, mem_parts_leaf, leaf.injEq]
  | dict m fs ih =>
    rw [leaves_dict, List.mem_flatMap, mem_parts_dict]
    simp only [reduceCtorEq, false_or]
    exact exists_congr fun v ↦ and_congr_right fun hv ↦ ih v hv

theorem mem_leaves_of_field {n m : Node} {fs : List Variable} {v : Variable} (hv : v ∈ fs)
    (hm : m ∈ v.leaves) : m ∈ (dict n fs).leaves := by
  rw [leaves_dict]
  exact List.mem_flatMap.mpr ⟨v, hv, hm⟩

theorem mem_nodes_of_mem_leaves {n : Node} {v : Variable} (h : n ∈ v.leaves) : n ∈ v.nodes :=
  node_mem_nodes (mem_leaves_iff.mp h)

/-! ## Equal walks -/

section

variable {l l' : Node → Option Node} {d d' : List Variable → Node → Option Node} {v : Variable}

theorem walk?_congr (hl : ∀ n ∈ v.leaves, l n = l' n)
    (hd : ∀ n gs, dict n gs ∈ v.parts → ∀ fs, d fs n = d' fs n) :
    v.walk? l d = v.walk? l' d' := by
  induction v with
  | leaf n => rw [walk?_leaf, walk?_leaf, hl n (by simp)]
  | dict n fs ih =>
    have hfields : fs.mapM (walk? l d) = fs.mapM (walk? l' d') := by
      refine mapM_congr fun v hv ↦ ih v hv (fun m hm ↦ hl m (mem_leaves_of_field hv hm)) ?_
      exact fun m gs hm ↦ hd m gs (mem_parts_dict.mpr (Or.inr ⟨v, hv, hm⟩))
    rw [walk?_dict, walk?_dict, hfields]
    simp only [hd n fs (self_mem_parts _)]

theorem walk?_eq_self (h : ∀ n ∈ v.nodes, l n = some n ∧ ∀ fs, d fs n = some n) :
    v.walk? l d = some v := by
  rw [walk?_congr (fun n hn ↦ (h n (mem_nodes_of_mem_leaves hn)).1)
    fun n gs hn ↦ (h n (node_mem_nodes hn)).2]
  clear h
  induction v with
  | leaf n => rfl
  | dict n fs ih => rw [walk?_dict, mapM_eq_self ih]; rfl

end

/-! ## What a walk leaves -/

section

variable {l : Node → Option Node} {d : List Variable → Node → Option Node} {v w : Variable}

theorem node_walk? (h : v.walk? l d = some w) :
    l v.node = some w.node ∨ ∃ gs, d gs v.node = some w.node := by
  cases v with
  | leaf n =>
    obtain ⟨m, hm, rfl⟩ := walk?_leaf_eq_some_iff.mp h
    exact Or.inl hm
  | dict n fs =>
    obtain ⟨ws, m, -, hm, rfl⟩ := walk?_dict_eq_some_iff.mp h
    exact Or.inr ⟨ws, hm⟩

theorem leaves_of_walk? (h : v.walk? l d = some w) : v.leaves.mapM l = some w.leaves := by
  induction v generalizing w with
  | leaf n =>
    obtain ⟨m, hm, rfl⟩ := walk?_leaf_eq_some_iff.mp h
    rw [leaves_leaf, leaves_leaf, option_mapM_cons, hm]
    rfl
  | dict n fs ih =>
    obtain ⟨ws, m, hws, -, rfl⟩ := walk?_dict_eq_some_iff.mp h
    rw [leaves_dict, leaves_dict, mapM_eq_some_iff]
    exact rel_flatMap_of_mem (mapM_eq_some_iff.mp hws) fun f hf g _ hfg ↦
      mapM_eq_some_iff.mp (ih f hf hfg)

theorem leaf_of_walk? (h : v.walk? l d = some w) {m : Node} (hm : leaf m ∈ w.parts) :
    ∃ n, leaf n ∈ v.parts ∧ l n = some m := by
  induction v generalizing w with
  | leaf n =>
    obtain ⟨m', hm', rfl⟩ := walk?_leaf_eq_some_iff.mp h
    cases mem_parts_leaf.mp hm
    exact ⟨n, self_mem_parts _, hm'⟩
  | dict n fs ih =>
    obtain ⟨ws, m', hws, -, rfl⟩ := walk?_dict_eq_some_iff.mp h
    rcases mem_parts_dict.mp hm with hm | ⟨g, hg, hmg⟩
    · cases hm
    · obtain ⟨f, hf, hfg⟩ := exists_of_mem_mapM hws hg
      obtain ⟨k, hk, hkm⟩ := ih f hf hfg hmg
      exact ⟨k, mem_parts_dict.mpr (Or.inr ⟨f, hf, hk⟩), hkm⟩

/-- Every dictionary that a walk leaves is what it makes of a dictionary whose fields it has
changed. -/
theorem dict_of_walk? (h : v.walk? l d = some w) {m : Node} {gs : List Variable}
    (hm : dict m gs ∈ w.parts) :
    ∃ n fs, dict n fs ∈ v.parts ∧ fs.mapM (walk? l d) = some gs ∧ d gs n = some m := by
  induction v generalizing w with
  | leaf n =>
    obtain ⟨m', -, rfl⟩ := walk?_leaf_eq_some_iff.mp h
    cases mem_parts_leaf.mp hm
  | dict n fs ih =>
    obtain ⟨ws, m', hws, hm', rfl⟩ := walk?_dict_eq_some_iff.mp h
    rcases mem_parts_dict.mp hm with hm | ⟨g, hg, hmg⟩
    · cases hm
      exact ⟨n, fs, self_mem_parts _, hws, hm'⟩
    · obtain ⟨f, hf, hfg⟩ := exists_of_mem_mapM hws hg
      obtain ⟨k, ks, hk, hkm⟩ := ih f hf hfg hmg
      exact ⟨k, ks, mem_parts_dict.mpr (Or.inr ⟨f, hf, hk⟩), hkm⟩

/-- A walk changes nothing the second time if nothing that it does to a node does. -/
theorem walk?_of_walk? (hl : ∀ n m, l n = some m → l m = some m)
    (hd : ∀ fs n m, d fs n = some m → d fs m = some m) (h : v.walk? l d = some w) :
    w.walk? l d = some w := by
  induction v generalizing w with
  | leaf n =>
    obtain ⟨m, hm, rfl⟩ := walk?_leaf_eq_some_iff.mp h
    exact walk?_leaf_eq_some_iff.mpr ⟨m, hl n m hm, rfl⟩
  | dict n fs ih =>
    obtain ⟨ws, m, hws, hm, rfl⟩ := walk?_dict_eq_some_iff.mp h
    have hself : ws.mapM (walk? l d) = some ws := mapM_of_mapM hws fun f hf _ ↦ ih f hf
    exact walk?_dict_eq_some_iff.mpr ⟨ws, m, hself, hd ws n m hm, rfl⟩

theorem exists_walk? (hl : ∀ n ∈ v.leaves, ∃ m, l n = some m)
    (hd : ∀ n gs, dict n gs ∈ v.parts → ∀ fs, ∃ m, d fs n = some m) :
    ∃ w, v.walk? l d = some w := by
  induction v with
  | leaf n =>
    obtain ⟨m, hm⟩ := hl n (by simp)
    exact ⟨leaf m, walk?_leaf_eq_some_iff.mpr ⟨m, hm, rfl⟩⟩
  | dict n fs ih =>
    have hfields : ∀ f ∈ fs, ∃ g, f.walk? l d = some g := by
      refine fun f hf ↦ ih f hf (fun m hm ↦ hl m (mem_leaves_of_field hf hm)) ?_
      exact fun m gs hm ↦ hd m gs (mem_parts_dict.mpr (Or.inr ⟨f, hf, hm⟩))
    obtain ⟨ws, hws⟩ := exists_mapM hfields
    obtain ⟨m, hm⟩ := hd n fs (self_mem_parts _) ws
    exact ⟨dict m ws, walk?_dict_eq_some_iff.mpr ⟨ws, m, hws, hm, rfl⟩⟩

end

end Variable

end KernelCall
