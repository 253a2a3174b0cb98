import KernelCall.Proofs.Variable.Walk

/-!
# Variables of one shape

Two variables are related by `R` if they have the same tree and `R` holds of the nodes in the same
place. Every step of a build leaves a variable that is related to the one it started from, the
relation saying what the step may change; and two calls are compared by relating their variables.
-/

namespace KernelCall

namespace Variable

mutual

/-- The variables have one shape, and `R` holds place by place. -/
def Related (R : Node → Node → Prop) : Variable → Variable → Prop
  | leaf n, leaf m => R n m
  | dict n fs, dict m gs => R n m ∧ FieldsRelated R fs gs
  | _, _ => False

def FieldsRelated (R : Node → Node → Prop) : List Variable → List Variable → Prop
  | [], [] => True
  | v :: vs, w :: ws => Related R v w ∧ FieldsRelated R vs ws
  | _, _ => False

end

variable {R S T : Node → Node → Prop}

/-! The definitions are opened by computation: they have one shape for each pair of constructors. -/

theorem fieldsRelated_iff {vs ws : List Variable} :
    FieldsRelated R vs ws ↔ List.Forall₂ (Related R) vs ws := by
  induction vs generalizing ws with
  | nil =>
    cases ws with
    | nil => exact iff_of_true trivial .nil
    | cons w ws => exact iff_of_false id nofun
  | cons v vs ih =>
    cases ws with
    | nil => exact iff_of_false id nofun
    | cons w ws =>
      rw [List.forall₂_cons, ← ih]
      exact Iff.rfl

theorem related_leaf_iff {n : Node} {w : Variable} :
    Related R (leaf n) w ↔ ∃ m, w = leaf m ∧ R n m := by
  constructor
  · intro h
    cases w with
    | leaf m => exact ⟨m, rfl, h⟩
    | dict m gs => exact False.elim h
  · rintro ⟨m, rfl, h⟩
    exact h

theorem related_dict_iff {n : Node} {fs : List Variable} {w : Variable} :
    Related R (dict n fs) w ↔ ∃ m gs, w = dict m gs ∧ R n m ∧ List.Forall₂ (Related R) fs gs := by
  constructor
  · intro h
    cases w with
    | leaf m => exact False.elim h
    | dict m gs => exact ⟨m, gs, rfl, h.1, fieldsRelated_iff.mp h.2⟩
  · rintro ⟨m, gs, rfl, h, hf⟩
    exact ⟨h, fieldsRelated_iff.mpr hf⟩

theorem related_leaf {n m : Node} (h : R n m) : Related R (leaf n) (leaf m) :=
  related_leaf_iff.mpr ⟨m, rfl, h⟩

theorem related_dict {n m : Node} {fs gs : List Variable} (h : R n m)
    (hf : List.Forall₂ (Related R) fs gs) : Related R (dict n fs) (dict m gs) :=
  related_dict_iff.mpr ⟨m, gs, rfl, h, hf⟩

theorem Related.node {v w : Variable} (h : Related R v w) : R v.node w.node := by
  cases v with
  | leaf n =>
    obtain ⟨m, rfl, hm⟩ := related_leaf_iff.mp h
    exact hm
  | dict n fs =>
    obtain ⟨m, gs, rfl, hm, -⟩ := related_dict_iff.mp h
    exact hm

theorem Related.imp_of_mem {v w : Variable} (h : Related R v w)
    (hrs : ∀ n ∈ v.nodes, ∀ m ∈ w.nodes, R n m → S n m) : Related S v w := by
  induction v generalizing w with
  | leaf n =>
    obtain ⟨m, rfl, hm⟩ := related_leaf_iff.mp h
    exact related_leaf (hrs n (by simp) m (by simp) hm)
  | dict n fs ih =>
    obtain ⟨m, gs, rfl, hm, hf⟩ := related_dict_iff.mp h
    refine related_dict (hrs n (node_mem_nodes_dict n fs) m (node_mem_nodes_dict m gs) hm) ?_
    refine forall₂_of_mem hf fun f hff g hgg hfg ↦ ih f hff hfg ?_
    exact fun a ha b hb ↦ hrs a (mem_nodes_of_field hff ha) b (mem_nodes_of_field hgg hb)

theorem Related.imp {v w : Variable} (h : Related R v w) (hrs : ∀ n m, R n m → S n m) :
    Related S v w :=
  h.imp_of_mem fun n _ m _ ↦ hrs n m

theorem related_self {v : Variable} (h : ∀ n ∈ v.nodes, R n n) : Related R v v := by
  induction v with
  | leaf n => exact related_leaf (h n (by simp))
  | dict n fs ih =>
    refine related_dict (h n (node_mem_nodes_dict n fs)) (List.forall₂_same.mpr fun f hf ↦ ?_)
    exact ih f hf fun m hm ↦ h m (mem_nodes_of_field hf hm)

theorem Related.mapNode {v w : Variable} (h : Related R v w) {f : Node → Node}
    (hf : ∀ n m, R n m → R (f n) (f m)) : Related R (v.mapNode f) (w.mapNode f) := by
  cases v with
  | leaf n =>
    obtain ⟨m, rfl, hm⟩ := related_leaf_iff.mp h
    exact related_leaf (hf n m hm)
  | dict n fs =>
    obtain ⟨m, gs, rfl, hm, hfg⟩ := related_dict_iff.mp h
    exact related_dict (hf n m hm) hfg

theorem related_mapNode {f : Node → Node} {v : Variable} (hf : ∀ n, R n (f n)) (h : ∀ n, R n n) :
    Related R v (v.mapNode f) := by
  cases v with
  | leaf n => exact related_leaf (hf n)
  | dict n fs => exact related_dict (hf n) (List.forall₂_same.mpr fun f _ ↦ related_self fun n _ ↦ h n)

theorem Related.trans {u v w : Variable} (huv : Related R u v) (hvw : Related S v w)
    (hrst : ∀ a b c, R a b → S b c → T a c) : Related T u w := by
  induction u generalizing v w with
  | leaf n =>
    obtain ⟨m, rfl, hm⟩ := related_leaf_iff.mp huv
    obtain ⟨k, rfl, hk⟩ := related_leaf_iff.mp hvw
    exact related_leaf (hrst n m k hm hk)
  | dict n fs ih =>
    obtain ⟨m, gs, rfl, hm, hfg⟩ := related_dict_iff.mp huv
    obtain ⟨k, hs, rfl, hk, hgh⟩ := related_dict_iff.mp hvw
    refine related_dict (hrst n m k hm hk) ?_
    clear huv hvw
    induction hfg generalizing hs with
    | nil => rw [List.forall₂_nil_left_iff.mp hgh]; exact .nil
    | @cons f g fs gs hf _ ihs =>
      obtain ⟨h, hs, hg, hgs, rfl⟩ := List.forall₂_cons_left_iff.mp hgh
      exact .cons (ih f List.mem_cons_self hf hg)
        (ihs (fun v hv ↦ ih v (List.mem_cons_of_mem f hv)) hs hgs)

/-- What holds part by part: leaves are related to leaves, dictionaries to dictionaries. -/
theorem Related.imp_of_parts {v w : Variable} (h : Related R v w)
    (hleaf : ∀ n, leaf n ∈ v.parts → ∀ m, leaf m ∈ w.parts → R n m → S n m)
    (hdict : ∀ n fs, dict n fs ∈ v.parts → ∀ m gs, dict m gs ∈ w.parts → R n m → S n m) :
    Related S v w := by
  induction v generalizing w with
  | leaf n =>
    obtain ⟨m, rfl, hm⟩ := related_leaf_iff.mp h
    exact related_leaf (hleaf n (self_mem_parts _) m (self_mem_parts _) hm)
  | dict n fs ih =>
    obtain ⟨m, gs, rfl, hm, hf⟩ := related_dict_iff.mp h
    refine related_dict (hdict n fs (self_mem_parts _) m gs (self_mem_parts _) hm) ?_
    refine forall₂_of_mem hf fun f hff g hgg hfg ↦ ih f hff hfg ?_ ?_
    · exact fun a ha b hb ↦ hleaf a (mem_parts_dict.mpr (Or.inr ⟨f, hff, ha⟩)) b
        (mem_parts_dict.mpr (Or.inr ⟨g, hgg, hb⟩))
    · exact fun a as ha b bs hb ↦ hdict a as (mem_parts_dict.mpr (Or.inr ⟨f, hff, ha⟩)) b bs
        (mem_parts_dict.mpr (Or.inr ⟨g, hgg, hb⟩))

theorem Related.forall₂_nodes {v w : Variable} (h : Related R v w) :
    List.Forall₂ R v.nodes w.nodes := by
  induction v generalizing w with
  | leaf n =>
    obtain ⟨m, rfl, hm⟩ := related_leaf_iff.mp h
    exact .cons hm .nil
  | dict n fs ih =>
    obtain ⟨m, gs, rfl, hm, hf⟩ := related_dict_iff.mp h
    rw [nodes_dict, nodes_dict]
    exact .cons hm (rel_flatMap_of_mem hf fun f hff g _ hfg ↦ ih f hff hfg)

theorem Related.forall₂_leaves {v w : Variable} (h : Related R v w) :
    List.Forall₂ R v.leaves w.leaves := by
  induction v generalizing w with
  | leaf n =>
    obtain ⟨m, rfl, hm⟩ := related_leaf_iff.mp h
    exact .cons hm .nil
  | dict n fs ih =>
    obtain ⟨m, gs, rfl, -, hf⟩ := related_dict_iff.mp h
    rw [leaves_dict, leaves_dict]
    exact rel_flatMap_of_mem hf fun f hff g _ hfg ↦ ih f hff hfg

private theorem forall₂_related_and {vs ws : List Variable} (h : List.Forall₂ (Related R) vs ws)
    (hand : ∀ v ∈ vs, ∀ w, Related R v w → List.Forall₂ S v.nodes w.nodes →
      Related (fun n m ↦ R n m ∧ S n m) v w)
    (hs : List.Forall₂ S (vs.flatMap nodes) (ws.flatMap nodes)) :
    List.Forall₂ (Related fun n m ↦ R n m ∧ S n m) vs ws := by
  induction h with
  | nil => exact .nil
  | @cons v w vs ws hvw _ ih =>
    rw [List.flatMap_cons, List.flatMap_cons] at hs
    have hlength := hvw.forall₂_nodes.length_eq
    have hhead := List.forall₂_take v.nodes.length hs
    have htail := List.forall₂_drop v.nodes.length hs
    rw [List.take_left, hlength, List.take_left] at hhead
    rw [List.drop_left, hlength, List.drop_left] at htail
    exact .cons (hand v List.mem_cons_self w hvw hhead)
      (ih (fun u hu ↦ hand u (List.mem_cons_of_mem v hu)) htail)

/-- Relations between nodes can be added in the order of the nodes. -/
theorem Related.and {v w : Variable} (h : Related R v w) (hs : List.Forall₂ S v.nodes w.nodes) :
    Related (fun n m ↦ R n m ∧ S n m) v w := by
  induction v generalizing w with
  | leaf n =>
    obtain ⟨m, rfl, hm⟩ := related_leaf_iff.mp h
    exact related_leaf ⟨hm, (List.forall₂_cons.mp hs).1⟩
  | dict n fs ih =>
    obtain ⟨m, gs, rfl, hm, hf⟩ := related_dict_iff.mp h
    rw [nodes_dict, nodes_dict, List.forall₂_cons] at hs
    exact related_dict ⟨hm, hs.1⟩ (forall₂_related_and hf (fun f hf _ ↦ ih f hf) hs.2)

theorem related_and_of_nodes {vs ws : List Variable} (h : List.Forall₂ (Related R) vs ws)
    (hs : List.Forall₂ S (vs.flatMap nodes) (ws.flatMap nodes)) :
    List.Forall₂ (Related fun n m ↦ R n m ∧ S n m) vs ws :=
  forall₂_related_and h (fun _ _ _ ↦ Related.and) hs

theorem Related.forall_nodes {v w : Variable} (h : Related R v w) {P Q : Node → Prop}
    (hpq : ∀ n m, R n m → P n → Q m) (hv : ∀ n ∈ v.nodes, P n) : ∀ m ∈ w.nodes, Q m := by
  have hnodes := h.forall₂_nodes
  generalize v.nodes = ns at hv hnodes
  generalize w.nodes = ms at hnodes
  induction hnodes with
  | nil => simp
  | @cons n m ns ms hnm _ ih =>
    rw [List.forall_mem_cons] at hv ⊢
    exact ⟨hpq n m hnm hv.1, ih hv.2⟩

theorem forall_nodes_of_related {vs ws : List Variable} (h : List.Forall₂ (Related R) vs ws)
    {P Q : Node → Prop} (hpq : ∀ n m, R n m → P n → Q m) (hvs : ∀ v ∈ vs, ∀ n ∈ v.nodes, P n) :
    ∀ w ∈ ws, ∀ m ∈ w.nodes, Q m := by
  intro w hw
  obtain ⟨v, hv, hvw⟩ := exists_of_forall₂_right h hw
  exact hvw.forall_nodes hpq (hvs v hv)

theorem forall_leaves_of_related {vs ws : List Variable} (h : List.Forall₂ (Related R) vs ws)
    {P Q : Node → Prop} (hpq : ∀ n m, R n m → P n → Q m) (hvs : ∀ n ∈ vs.flatMap leaves, P n) :
    ∀ m ∈ ws.flatMap leaves, Q m := by
  intro m hm
  have hleaves : List.Forall₂ R (vs.flatMap leaves) (ws.flatMap leaves) :=
    List.rel_flatMap h fun _ _ ↦ Related.forall₂_leaves
  obtain ⟨n, hn, hnm⟩ := exists_of_forall₂_right hleaves hm
  exact hpq n m hnm (hvs n hn)

/-- A walk leaves a variable related to the one it started from by what it does to nodes. -/
theorem related_of_walk? {l : Node → Option Node} {d : List Variable → Node → Option Node}
    (hl : ∀ n m, l n = some m → R n m) (hd : ∀ fs n m, d fs n = some m → R n m) {v w : Variable}
    (h : v.walk? l d = some w) : Related R v w := by
  induction v generalizing w with
  | leaf n =>
    obtain ⟨m, hm, rfl⟩ := walk?_leaf_eq_some_iff.mp h
    exact related_leaf (hl n m hm)
  | dict n fs ih =>
    obtain ⟨ws, m, hws, hm, rfl⟩ := walk?_dict_eq_some_iff.mp h
    exact related_dict (hd ws n m hm)
      (forall₂_of_mem (mapM_eq_some_iff.mp hws) fun f hf g _ hfg ↦ ih f hf hfg)

/-- Two walks over one variable leave variables that are related by what they do to its nodes. -/
theorem related_of_walks {l l' : Node → Option Node} {d d' : List Variable → Node → Option Node}
    (hl : ∀ n m m', l n = some m → l' n = some m' → R m m')
    (hd : ∀ fs gs n m m', d fs n = some m → d' gs n = some m' → R m m') {v w w' : Variable}
    (h : v.walk? l d = some w) (h' : v.walk? l' d' = some w') : Related R w w' := by
  induction v generalizing w w' with
  | leaf n =>
    obtain ⟨m, hm, rfl⟩ := walk?_leaf_eq_some_iff.mp h
    obtain ⟨m', hm', rfl⟩ := walk?_leaf_eq_some_iff.mp h'
    exact related_leaf (hl n m m' hm hm')
  | dict n fs ih =>
    obtain ⟨gs, m, hgs, hm, rfl⟩ := walk?_dict_eq_some_iff.mp h
    obtain ⟨gs', m', hgs', hm', rfl⟩ := walk?_dict_eq_some_iff.mp h'
    refine related_dict (hd gs gs' n m m' hm hm') ?_
    exact forall₂_of_common (mapM_eq_some_iff.mp hgs) (mapM_eq_some_iff.mp hgs')
      fun f hf g g' hg hg' ↦ ih f hf hg hg'

end Variable

end KernelCall
