import KernelCall.Call.Vectorize
import KernelCall.Proofs.Variable.Related
import Mathlib.Data.Option.Basic

/-!
# Variables altered place by place

A pass alters nodes and keeps the tree. What it may do to a node depends on whether the node is that
of a leaf or of a dictionary, and on the pin that an override has for the place. `Altered` puts this
together: a leaf is altered in the way `L` says for its pin, a dictionary's own node in the way `D`
says, and fields keep their order and their names, each under the override that its dictionary's
override has for that name. The name of the variable itself is left open, since binding gives a name
to a root that has none.

What is shown of a relation between nodes in this way is then known of the nodes at every place
(`Altered.descend?`), of every part (`Altered.exists_part`), and of the tree as a whole
(`Altered.skeleton_eq`).
-/

namespace KernelCall

/-! ## Overrides at a place -/

namespace Override

/-- The pin, if the override is no more than a pin. -/
def pin? : Override → Option Pin
  | pin p => some p
  | fields _ => none

/-- The override for the field of a given name. -/
def field? (o : Override) (name : String) : Option Override :=
  match o with
  | pin _ => none
  | fields entries => entry? entries name

/-- Descends along the names of fields. -/
def descend? (o : Override) : List String → Option Override
  | [] => some o
  | name :: names => do (← o.field? name).descend? names

end Override

namespace Variable

/-! ## The relation -/

mutual

/-- The second variable is the first, altered place by place under an override. -/
def Altered (L : Option Pin → Node → Node → Prop) (D : Node → Node → Prop) :
    Option Override → Variable → Variable → Prop
  | o?, leaf n, leaf m => L (o?.bind Override.pin?) n m
  | o?, dict n fs, dict m gs => D n m ∧ FieldsAltered L D o? fs gs
  | _, _, _ => False

def FieldsAltered (L : Option Pin → Node → Node → Prop) (D : Node → Node → Prop) :
    Option Override → List Variable → List Variable → Prop
  | _, [], [] => True
  | o?, v :: vs, w :: ws =>
    (w.name = v.name ∧ Altered L D (o?.bind (·.field? v.name)) v w) ∧ FieldsAltered L D o? vs ws
  | _, _, _ => False

end

section

variable {L L' : Option Pin → Node → Node → Prop} {D D' : Node → Node → Prop}
  {o? : Option Override} {v w : Variable}

theorem fieldsAltered_iff {vs ws : List Variable} :
    FieldsAltered L D o? vs ws ↔ List.Forall₂
      (fun v w ↦ w.name = v.name ∧ Altered L D (o?.bind (·.field? v.name)) v w) vs ws := by
  induction vs generalizing ws with
  | nil =>
    cases ws with
    | nil => exact iff_of_true trivial .nil
    | cons w ws => exact iff_of_false id nofun
  | cons v vs ih =>
    cases ws with
    | nil => exact iff_of_false id nofun
    | cons w ws =>
      rw [List.forall₂_cons, ← ih]
      exact Iff.rfl

theorem altered_leaf_iff {n : Node} :
    Altered L D o? (leaf n) w ↔ ∃ m, w = leaf m ∧ L (o?.bind Override.pin?) n m := by
  constructor
  · intro h
    cases w with
    | leaf m => exact ⟨m, rfl, h⟩
    | dict m gs => exact False.elim h
  · rintro ⟨m, rfl, h⟩
    exact h

theorem altered_dict_iff {n : Node} {fs : List Variable} :
    Altered L D o? (dict n fs) w ↔ ∃ m gs, w = dict m gs ∧ D n m ∧ List.Forall₂
      (fun f g ↦ g.name = f.name ∧ Altered L D (o?.bind (·.field? f.name)) f g) fs gs := by
  constructor
  · intro h
    cases w with
    | leaf m => exact False.elim h
    | dict m gs => exact ⟨m, gs, rfl, h.1, fieldsAltered_iff.mp h.2⟩
  · rintro ⟨m, gs, rfl, h, hf⟩
    exact ⟨h, fieldsAltered_iff.mpr hf⟩

theorem altered_leaf {n m : Node} (h : L (o?.bind Override.pin?) n m) :
    Altered L D o? (leaf n) (leaf m) := h

theorem altered_dict {n m : Node} {fs gs : List Variable} (h : D n m) (hf : List.Forall₂
    (fun f g ↦ g.name = f.name ∧ Altered L D (o?.bind (·.field? f.name)) f g) fs gs) :
    Altered L D o? (dict n fs) (dict m gs) :=
  altered_dict_iff.mpr ⟨m, gs, rfl, h, hf⟩

theorem Altered.imp (h : Altered L D o? v w) (hL : ∀ p? n m, L p? n m → L' p? n m)
    (hD : ∀ n m, D n m → D' n m) : Altered L' D' o? v w := by
  induction v generalizing o? w with
  | leaf n =>
    obtain ⟨m, rfl, hm⟩ := altered_leaf_iff.mp h
    exact altered_leaf (hL _ n m hm)
  | dict n fs ih =>
    obtain ⟨m, gs, rfl, hm, hfg⟩ := altered_dict_iff.mp h
    refine altered_dict (hD n m hm) (forall₂_of_mem hfg fun f hf g _ hfg ↦ ?_)
    exact ⟨hfg.1, ih f hf hfg.2⟩

theorem altered_self (hL : ∀ p? n, L p? n n) (hD : ∀ n, D n n) (o? : Option Override)
    (v : Variable) : Altered L D o? v v := by
  induction v generalizing o? with
  | leaf n => exact altered_leaf (hL _ n)
  | dict n fs ih => exact altered_dict (hD n) (List.forall₂_same.mpr fun f hf ↦ ⟨rfl, ih f hf _⟩)

theorem altered_of_related {R : Node → Node → Prop} (h : Related R v w)
    (hname : ∀ n m, R n m → m.name = n.name) (hL : ∀ n m, R n m → L none n m)
    (hD : ∀ n m, R n m → D n m) : Altered L D none v w := by
  induction v generalizing w with
  | leaf n =>
    obtain ⟨m, rfl, hm⟩ := related_leaf_iff.mp h
    exact altered_leaf (hL n m hm)
  | dict n fs ih =>
    obtain ⟨m, gs, rfl, hm, hfg⟩ := related_dict_iff.mp h
    refine altered_dict (hD n m hm) (forall₂_of_mem hfg fun f hf g _ hfg ↦ ?_)
    exact ⟨hname f.node g.node hfg.node, ih f hf hfg⟩

theorem Altered.related {R : Node → Node → Prop} (h : Altered L D o? v w)
    (hL : ∀ p? n m, L p? n m → R n m) (hD : ∀ n m, D n m → R n m) : Related R v w := by
  induction v generalizing o? w with
  | leaf n =>
    obtain ⟨m, rfl, hm⟩ := altered_leaf_iff.mp h
    exact related_leaf (hL _ n m hm)
  | dict n fs ih =>
    obtain ⟨m, gs, rfl, hm, hfg⟩ := altered_dict_iff.mp h
    exact related_dict (hD n m hm) (forall₂_of_mem hfg fun f hf g _ hfg ↦ ih f hf hfg.2)

/-! ## Places -/

/-- Of two lists with the same names in order, look-up by name finds corresponding members. -/
theorem rel_find?_name {R : Variable → Variable → Prop} {vs ws : List Variable}
    (h : List.Forall₂ (fun v w ↦ w.name = v.name ∧ R v w) vs ws) (name : String) :
    Option.Rel (fun v w ↦ v.name = name ∧ R v w) (vs.find? (·.name == name))
      (ws.find? (·.name == name)) := by
  induction h with
  | nil => exact .none
  | @cons v w vs ws hvw _ ih =>
    rw [List.find?_cons, List.find?_cons, hvw.1]
    by_cases hname : v.name = name
    · rw [beq_iff_eq.mpr hname]
      exact .some ⟨hname, hvw.2⟩
    · rw [beq_eq_false_iff_ne.mpr hname]
      exact ih

/-- **The same place.** Names lead to corresponding variables, or to none in either. -/
theorem Altered.descend? (h : Altered L D o? v w) (names : List String) :
    Option.Rel (Altered L D (o?.bind (·.descend? names))) (v.descend? names) (w.descend? names) := by
  induction names generalizing o? v w with
  | nil =>
    have hself : (o?.bind (·.descend? [])) = o? := by cases o? <;> rfl
    rw [hself]
    exact .some h
  | cons name names ih =>
    -- induction on the names, for the override descends along with the variables
    have hdescend : (o?.bind (·.descend? (name :: names))) =
        (o?.bind (·.field? name)).bind (·.descend? names) := by cases o? <;> rfl
    have hfield : Option.Rel (fun f g ↦ f.name = name ∧ Altered L D (o?.bind (·.field? f.name)) f g)
        (v.field? name) (w.field? name) := by
      cases v with
      | leaf n =>
        obtain ⟨m, rfl, -⟩ := altered_leaf_iff.mp h
        exact .none
      | dict n fs =>
        obtain ⟨m, gs, rfl, -, hfg⟩ := altered_dict_iff.mp h
        exact rel_find?_name hfg name
    rw [hdescend]
    refine rel_bind hfield ?_
    rintro f g ⟨rfl, hfg⟩
    exact ih hfg

/-- Every part of the altered variable stems from a part of the first, at the same place. -/
theorem Altered.exists_part (h : Altered L D o? v w) {u : Variable} (hu : u ∈ w.parts) :
    ∃ t ∈ v.parts, ∃ o?, Altered L D o? t u := by
  induction v generalizing o? w with
  | leaf n =>
    obtain ⟨m, rfl, -⟩ := altered_leaf_iff.mp h
    rw [mem_parts_leaf.mp hu]
    exact ⟨leaf n, self_mem_parts _, o?, h⟩
  | dict n fs ih =>
    obtain ⟨m, gs, rfl, -, hfg⟩ := altered_dict_iff.mp h
    rcases mem_parts_dict.mp hu with rfl | ⟨g, hg, hug⟩
    · exact ⟨dict n fs, self_mem_parts _, o?, h⟩
    · obtain ⟨f, hf, hfg⟩ := exists_of_forall₂_right hfg hg
      obtain ⟨t, ht, htu⟩ := ih f hf hfg.2 hug
      exact ⟨t, mem_parts_dict.mpr (Or.inr ⟨f, hf, ht⟩), htu⟩

end

/-! ## Skeletons -/

end Variable

/-- What no pass changes of a variable: the marshall at every node, and below a dictionary the names
of the fields in order. -/
inductive Skeleton where
  | leaf (marshall : Marshall)
  | dict (marshall : Marshall) (fields : List (String × Skeleton))
  deriving Repr

namespace Variable

mutual

def skeleton : Variable → Skeleton
  | leaf n => .leaf n.marshall
  | dict n fs => .dict n.marshall (fieldSkeletons fs)

/-- The fields with their names. -/
def fieldSkeletons : List Variable → List (String × Skeleton)
  | [] => []
  | v :: vs => (v.name, v.skeleton) :: fieldSkeletons vs

end

theorem fieldSkeletons_eq_map (vs : List Variable) :
    fieldSkeletons vs = vs.map fun v ↦ (v.name, v.skeleton) := by
  induction vs with
  | nil => rfl
  | cons v vs ih => rw [fieldSkeletons, ih, List.map_cons]

theorem Altered.skeleton_eq {L : Option Pin → Node → Node → Prop} {D : Node → Node → Prop}
    (hL : ∀ p? n m, L p? n m → m.marshall = n.marshall)
    (hD : ∀ n m, D n m → m.marshall = n.marshall) {o? : Option Override} {v w : Variable}
    (h : Altered L D o? v w) : w.skeleton = v.skeleton := by
  induction v generalizing o? w with
  | leaf n =>
    obtain ⟨m, rfl, hm⟩ := altered_leaf_iff.mp h
    rw [skeleton, skeleton, hL _ n m hm]
  | dict n fs ih =>
    obtain ⟨m, gs, rfl, hm, hfg⟩ := altered_dict_iff.mp h
    have hfields : fieldSkeletons gs = fieldSkeletons fs := by
      rw [fieldSkeletons_eq_map, fieldSkeletons_eq_map]
      refine (map_eq_of_forall₂ (forall₂_of_mem hfg fun f hf g _ hfg ↦ ?_)).symm
      rw [hfg.1, ih f hf hfg.2]
    rw [skeleton, skeleton, hD n m hm, hfields]

end Variable

end KernelCall
