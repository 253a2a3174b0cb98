import KernelCall.Proofs.Call.Order
import KernelCall.Proofs.Call.Outline
import KernelCall.Proofs.Call.Run
import Mathlib.Data.List.Flatten

/-!
# Clashes of generated names

Names of types and constants are made from those of variables, and stand in one scope with fields
that have their own names. They are kept apart by how they start, as long as no field starts in the
same way, and among themselves because variables in one scope differ in name.

Accessors are another matter. Both formal parameters have fixed names, `context` and `value`, and the
accessor that loads a dictionary declares a local for each field under the name of the field. So a
struct with a field of either name is given an accessor in which that name is declared twice. This is
the only clash there is.
-/

namespace KernelCall

open Code

/-! ## Names of fields -/

/-- Whether a name starts like a generated one. -/
def isGenerated (name : String) : Bool :=
  ["_t_", "_m_", "load_", "store_"].any fun start ↦ start.toList.isPrefixOf name.toList

theorem isGenerated_append {start : String} (h : start ∈ ["_t_", "_m_", "load_", "store_"])
    (rest : String) : isGenerated (start ++ rest) := by
  rw [isGenerated, List.any_eq_true]
  refine ⟨start, h, ?_⟩
  rw [String.toList_append, List.isPrefixOf_iff_prefix]
  exact List.prefix_append _ _

namespace KernelType

mutual

/-- The names of the fields of a struct, and of the structs in it. -/
def fieldNames : KernelType → List String
  | struct _ fs _ => fieldNamesOf fs
  | _ => []

def fieldNamesOf : List (String × KernelType) → List String
  | [] => []
  | (name, t) :: fs => name :: (t.fieldNames ++ fieldNamesOf fs)

end

theorem mem_fieldNamesOf {fs : List (String × KernelType)} {e : String × KernelType} (h : e ∈ fs) :
    e.1 ∈ fieldNamesOf fs ∧ e.2.fieldNames ⊆ fieldNamesOf fs := by
  induction fs with
  | nil => cases h
  | cons x fs ih =>
    obtain ⟨name, t⟩ := x
    rw [fieldNamesOf]
    rcases List.mem_cons.mp h with rfl | h
    · exact ⟨List.mem_cons_self, fun _ hx ↦ List.mem_cons_of_mem _ (List.mem_append_left _ hx)⟩
    · obtain ⟨hname, hnames⟩ := ih h
      exact ⟨List.mem_cons_of_mem _ (List.mem_append_right _ hname),
        fun _ hx ↦ List.mem_cons_of_mem _ (List.mem_append_right _ (hnames hx))⟩

theorem mem_fieldNames_of_field? {t u : KernelType} {name : String} (h : t.field? name = some u) :
    name ∈ t.fieldNames ∧ u.fieldNames ⊆ t.fieldNames := by
  obtain ⟨e, he, rfl⟩ := Option.map_eq_some_iff.mp h
  have hname := List.find?_some he
  obtain rfl : e.1 = name := eq_of_beq hname
  have hmem := List.mem_of_find?_eq_some he
  cases t with
  | struct _ fs _ =>
    rw [fieldNames]
    exact mem_fieldNamesOf hmem
  | _ => cases hmem

end KernelType

/-- The types that variables are bound to. -/
def Function.types (f : Function) : List KernelType :=
  f.params.map (·.type) ++ f.receiverType.toList ++ f.returnType.toList

theorem Function.type_mem_of_seat? {f : Function} {keyword : String} {target : Target}
    {index? : Option Nat} (h : f.seat? keyword = some (target, index?)) :
    target.type ∈ f.types := by
  rw [types, List.mem_append, List.mem_append]
  rw [seat?] at h
  split at h
  · obtain ⟨type, htype, h⟩ := Option.map_eq_some_iff.mp h
    cases h
    exact Or.inl (Or.inr (by simp [htype]))
  split at h
  · obtain ⟨type, htype, h⟩ := Option.map_eq_some_iff.mp h
    cases h
    exact Or.inr (by simp [htype])
  · obtain ⟨⟨index, p⟩, hp, h⟩ := Option.map_eq_some_iff.mp h
    cases h
    exact Or.inl (Or.inl (List.mem_map_of_mem (List.mem_of_getElem? (name_of_param? hp).2)))

/-- The entries of a dictionary are fields of the type that it is bound to, or of one in it. -/
theorem Variable.BoundTo.mem_fieldNames {v : Variable} {path : String} {target : Target}
    (h : v.BoundTo path target) {n : Node} {fs : List Variable} (hn : dict n fs ∈ v.parts)
    {g : Variable} (hg : g ∈ fs) : g.name ∈ target.type.fieldNames := by
  induction v generalizing path target with
  | leaf m => cases mem_parts_leaf.mp hn
  | dict m gs ih =>
    obtain ⟨-, hfields⟩ := boundTo_dict_iff.mp h
    rcases mem_parts_dict.mp hn with heq | ⟨f, hf, hn⟩
    · cases heq
      obtain ⟨type, htype, -⟩ := hfields g hg
      exact (KernelType.mem_fieldNames_of_field? htype).1
    · obtain ⟨type, htype, hbound⟩ := hfields f hf
      exact (KernelType.mem_fieldNames_of_field? htype).2 (ih f hf hbound hn)

namespace Call

theorem Bound.exists_mem_fieldNames {f : Function} {c : Call} (h : c.Bound f) {v : Variable}
    (hv : v ∈ c.roots) {n : Node} {fs : List Variable} (hn : .dict n fs ∈ v.parts) {g : Variable}
    (hg : g ∈ fs) : ∃ t ∈ f.types, g.name ∈ t.fieldNames := by
  rcases List.mem_append.mp hv with hv | hv
  · obtain ⟨i, hi⟩ := List.mem_iff_getElem?.mp hv
    obtain ⟨p, hp, hseat⟩ := h.positional i v hi
    refine ⟨p.type, ?_, hseat.2.2.mem_fieldNames hn hg⟩
    exact List.mem_append_left _
      (List.mem_append_left _ (List.mem_map_of_mem (List.mem_of_getElem? hp)))
  · obtain ⟨target, index?, hseat, hseated⟩ := h.keyword v hv
    exact ⟨target.type, Function.type_mem_of_seat? hseat, hseated.2.2.mem_fieldNames hn hg⟩

/-- **Roots differ in name.** -/
theorem Bound.nodup_names {f : Function} {c : Call} (h : c.Bound f) (hc : c.Distinct)
    (hf : f.Named) : (c.roots.map (·.name)).Nodup := by
  have hindex : ∀ v ∈ c.roots.filter (!isReserved ·.name),
      v.node.paramIndex? = f.paramIndex? v.name := by
    intro v hv
    obtain ⟨hv, hfree⟩ := List.mem_filter.mp hv
    rcases List.mem_append.mp hv with hv | hv
    · obtain ⟨i, hi⟩ := List.mem_iff_getElem?.mp hv
      obtain ⟨p, hp, hseat⟩ := h.positional i v hi
      rw [hseat.2.1, hseat.1, hf.paramIndex? hp]
    · exact h.paramIndex?_keyword hv (by simpa using hfree)
  -- names that lead to different places are different
  have hfree : ((c.roots.filter (!isReserved ·.name)).map (·.name)).Nodup := by
    have hplaces := (h.perm_places hf.free).nodup_iff.mpr
      (List.nodup_range.map (Option.some_injective Nat))
    rw [List.map_congr_left hindex] at hplaces
    refine List.Nodup.of_map f.paramIndex? ?_
    rw [List.map_map]
    exact hplaces
  have hargs : c.args.filter (!isReserved ·.name) = c.args :=
    List.filter_eq_self.mpr fun v hv ↦ by rw [h.not_isReserved_args hf.free hv, Bool.not_false]
  rw [roots, List.filter_append, hargs, List.map_append, List.nodup_append'] at hfree
  rw [roots, List.map_append, List.nodup_append']
  refine ⟨hfree.1, hc.keywords, fun name hleft hright ↦ ?_⟩
  obtain ⟨v, hv, rfl⟩ := List.mem_map.mp hleft
  obtain ⟨w, hw, hname⟩ := List.mem_map.mp hright
  have hreserved : isReserved w.name = false := hname ▸ h.not_isReserved_args hf.free hv
  refine hfree.2.2 hleft (List.mem_map.mpr ⟨w, List.mem_filter.mpr ⟨hw, ?_⟩, hname⟩)
  rw [hreserved, Bool.not_false]

end Call

/-! ## Names in one scope -/

/-- The names of the types and constants of variables. -/
def typeNames (names : List String) : List String :=
  names.flatMap fun name ↦ ["_t_" ++ name, "_m_" ++ name]

theorem mem_typeNames_iff {names : List String} {x : String} :
    x ∈ typeNames names ↔ ∃ name ∈ names, x = "_t_" ++ name ∨ x = "_m_" ++ name := by
  simp [typeNames]

theorem type_ne_constant (x y : String) : "_t_" ++ x ≠ "_m_" ++ y := by
  intro h
  have h := congrArg String.toList h
  simp at h

theorem nodup_typeNames {names : List String} (h : names.Nodup) : (typeNames names).Nodup := by
  rw [typeNames, List.nodup_flatMap]
  refine ⟨fun name _ ↦ ?_, h.imp fun {x y} hne ↦ ?_⟩
  · simp
  · refine List.disjoint_left.mpr ?_
    simp only [List.mem_cons, List.not_mem_nil, or_false]
    rintro z (rfl | rfl) (hz | hz)
    · exact hne ((String.append_right_inj _).mp hz)
    · exact type_ne_constant _ _ hz
    · exact type_ne_constant _ _ hz.symm
    · exact hne ((String.append_right_inj _).mp hz)

/-- The names of the accessors for a slot. -/
def accessorNames (slot : Slot) : List String := ["load_" ++ slot.name, "store_" ++ slot.name]

theorem nodup_accessorNames (n : Node) : (n.accessedSlots.flatMap accessorNames).Nodup := by
  have hall : (Slot.all.flatMap accessorNames).Nodup := by decide
  exact (List.filter_sublist.flatMap _).nodup hall

theorem isGenerated_of_mem_typeNames {names : List String} {x : String} (h : x ∈ typeNames names) :
    isGenerated x := by
  obtain ⟨name, -, rfl | rfl⟩ := mem_typeNames_iff.mp h
  · exact isGenerated_append (by simp) name
  · exact isGenerated_append (by simp) name

theorem isGenerated_of_mem_accessorNames {slots : List Slot} {x : String}
    (h : x ∈ slots.flatMap accessorNames) : isGenerated x := by
  obtain ⟨slot, -, h⟩ := List.mem_flatMap.mp h
  rcases List.mem_cons.mp h with rfl | h
  · exact isGenerated_append (by simp) slot.name
  · rw [List.mem_singleton.mp h]
    exact isGenerated_append (by simp) slot.name

/-- No type or constant is named like an accessor. -/
theorem disjoint_typeNames_accessorNames (names : List String) (slots : List Slot) :
    (typeNames names).Disjoint (slots.flatMap accessorNames) := by
  intro x hx hslot
  have hunderscore : x.toList.head? = some '_' := by
    obtain ⟨name, -, rfl | rfl⟩ := mem_typeNames_iff.mp hx <;> simp
  obtain ⟨slot, -, hslot⟩ := List.mem_flatMap.mp hslot
  rcases List.mem_cons.mp hslot with rfl | hslot
  · simp at hunderscore
  · rw [List.mem_singleton.mp hslot] at hunderscore
    simp at hunderscore

/-- **The body of a struct has no clash.** -/
theorem nodup_struct {names : List String} {slots : List Slot} (h : names.Nodup)
    (hplain : ∀ name ∈ names, isGenerated name = false)
    (hslots : (slots.flatMap accessorNames).Nodup) :
    (typeNames names ++ names ++ slots.flatMap accessorNames).Nodup := by
  have hfields : ∀ x ∈ names, ¬ isGenerated x := fun x hx ↦ by simp [hplain x hx]
  rw [List.append_assoc, List.nodup_append', List.nodup_append', List.disjoint_append_right]
  refine ⟨nodup_typeNames h, ⟨h, hslots, fun x hx hslot ↦ ?_⟩, fun x hx hname ↦ ?_, ?_⟩
  · exact hfields x hx (isGenerated_of_mem_accessorNames hslot)
  · exact hfields x hname (isGenerated_of_mem_typeNames hx)
  · exact disjoint_typeNames_accessorNames names slots

/-! ## Scopes of variables -/

theorem clear_accessor_iff {verb slot direction target : String} {body : List Statement} :
    (accessor verb slot direction target body).Clear ↔
      (["context", "value"] ++ body.filterMap Statement.local?).Nodup :=
  Declaration.clear_function_iff

theorem names_slotOutline (slot storage target : String) :
    (slotOutline slot storage target).filterMap Declaration.name? =
      if storage == noStorage then [] else ["load" ++ "_" ++ slot, "store" ++ "_" ++ slot] := by
  rw [slotOutline]
  split <;> rfl

/-- The accessors of a pair declare no locals. -/
theorem clear_slotOutline (slot storage target : String) :
    ∀ d ∈ slotOutline slot storage target, d.Clear := by
  have hformals : ["context", "value"].Nodup := by decide
  have hbody : ∀ text : String,
      (["context", "value"] ++ [Statement.evaluate text].filterMap Statement.local?).Nodup :=
    fun _ ↦ hformals
  have hblank : Declaration.blankLine.Clear := Declaration.clear_of_scopes rfl
  rw [slotOutline]
  split
  · exact List.forall_mem_nil _
  · simp only [List.forall_mem_cons, clear_accessor_iff]
    exact ⟨hblank, hbody _, hblank, hbody _, List.forall_mem_nil _⟩

theorem CallData.clear_outline (name : String) (d : CallData) : (d.outline name).Clear := by
  cases d with
  | single storage => exact Declaration.clear_of_scopes rfl
  | pair primal derivative target =>
    have hslots : [Declaration.field primal.text "primal",
        .field derivative.text "derivative"].filterMap Declaration.name? =
          ["primal", "derivative"] := rfl
    rw [outline, Declaration.clear_struct_iff, List.filterMap_append, List.filterMap_append,
      names_slotOutline, names_slotOutline, hslots]
    constructor
    · split <;> split <;> decide
    · have hfields : ∀ d ∈ [Declaration.field primal.text "primal",
          .field derivative.text "derivative"], d.Clear := by
        simp [Declaration.Clear, Declaration.scopes]
      rw [List.forall_mem_append, List.forall_mem_append]
      exact ⟨⟨hfields, clear_slotOutline _ _ _⟩, clear_slotOutline _ _ _⟩

theorem names_storedFields (vs : List Variable) :
    (vs.map (storedField ·.name)).filterMap Declaration.name? = vs.map (·.name) := by
  rw [List.filterMap_map, ← List.filterMap_eq_map]
  rfl

theorem clear_storedFields (vs : List Variable) : ∀ d ∈ vs.map (storedField ·.name), d.Clear := by
  intro d hd
  obtain ⟨v, -, rfl⟩ := List.mem_map.mp hd
  exact Declaration.clear_of_scopes rfl

namespace Variable

/-- No accessor inside loads a field under the name of one of its formal parameters. -/
def AvoidsFormals (v : Variable) : Prop :=
  ∀ n fs, dict n fs ∈ v.parts → n.accessedSlots ≠ [] →
    ∀ g ∈ fs, g.name ≠ "context" ∧ g.name ≠ "value"

theorem avoidsFormals_dict_iff {n : Node} {fs : List Variable} : (dict n fs).AvoidsFormals ↔
    (n.accessedSlots ≠ [] → ∀ g ∈ fs, g.name ≠ "context" ∧ g.name ≠ "value") ∧
      ∀ f ∈ fs, f.AvoidsFormals := by
  constructor
  · intro h
    refine ⟨h n fs (self_mem_parts _), fun f hf m gs hm ↦ ?_⟩
    exact h m gs (mem_parts_dict.mpr (Or.inr ⟨f, hf, hm⟩))
  · rintro ⟨hroot, hfields⟩ m gs hm
    rcases mem_parts_dict.mp hm with heq | ⟨f, hf, hm⟩
    · cases heq
      exact hroot
    · exact hfields f hf m gs hm

/-- The accessors of a slot have no clash if no field is named like a formal parameter. -/
theorem clear_fieldOutline_iff {n : Node} {fs : List Variable} {slot : Slot}
    (h : (fs.map (·.name)).Nodup) : (∀ d ∈ fieldOutline n fs slot, d.Clear) ↔
      ∀ g ∈ fs, g.name ≠ "context" ∧ g.name ≠ "value" := by
  have hblank : Declaration.blankLine.Clear := Declaration.clear_of_scopes rfl
  have hload : (fs.flatMap fun v ↦ [Statement.declare (v.node.slotType slot) v.name,
      fieldAccess "load" slot v.name v.name, .assign ("value." ++ v.name) v.name]).filterMap
        Statement.local? = fs.map (·.name) := by
    rw [List.filterMap_flatMap, List.map_eq_flatMap]
    rfl
  have hstore : (fs.map fun v ↦ fieldAccess "store" slot v.name ("value." ++ v.name)).filterMap
      Statement.local? = [] := by
    rw [List.filterMap_map]
    exact List.filterMap_eq_nil_iff.mpr fun _ _ ↦ rfl
  have hformals : ["context", "value"].Nodup := by decide
  have hlocals : (["context", "value"] ++ fs.map (·.name)).Nodup ↔
      ∀ g ∈ fs, g.name ≠ "context" ∧ g.name ≠ "value" := by
    rw [List.nodup_append', and_iff_right hformals, and_iff_right h, List.disjoint_left]
    simp [forall_and, eq_comm]
  simp only [fieldOutline, List.forall_mem_cons, clear_accessor_iff, hload, hstore, hlocals]
  constructor
  · exact fun hclear ↦ hclear.2.2.1
  · exact fun havoids ↦ ⟨hblank, hblank, havoids, hblank, hformals, List.forall_mem_nil _⟩

theorem names_types {gridRank : Nat} {vs : List Variable}
    (h : ∀ v ∈ vs, ∃ isRoot commands, v.typeCommands gridRank isRoot = .ok commands) :
    (vs.flatMap (outline gridRank)).filterMap Declaration.name? = typeNames (vs.map (·.name)) := by
  rw [List.filterMap_flatMap, typeNames, List.flatMap_map]
  refine List.flatMap_congr fun v hv ↦ ?_
  obtain ⟨isRoot, commands, hv⟩ := h v hv
  obtain ⟨d, houtline, hname⟩ := outline_of_typeCommands hv
  rw [houtline, List.filterMap_cons, hname]
  rfl

/-- The names that are declared in the body of a dictionary's struct. -/
theorem names_members {gridRank : Nat} {n : Node} {fs : List Variable}
    (h : ∀ f ∈ fs, ∃ isRoot commands, f.typeCommands gridRank isRoot = .ok commands) :
    (fs.flatMap (outline gridRank) ++ fs.map (storedField ·.name) ++
      n.accessedSlots.flatMap (fieldOutline n fs)).filterMap Declaration.name? =
        typeNames (fs.map (·.name)) ++ fs.map (·.name) ++ n.accessedSlots.flatMap accessorNames := by
  have hslots : (n.accessedSlots.flatMap (fieldOutline n fs)).filterMap Declaration.name? =
      n.accessedSlots.flatMap accessorNames := by
    rw [List.filterMap_flatMap]
    refine List.flatMap_congr fun slot _ ↦ ?_
    cases slot <;> rfl
  rw [List.filterMap_append, List.filterMap_append, names_types h, names_storedFields,
    hslots]

/-- **Where names clash in the code for a variable.** -/
theorem clear_outline_iff {gridRank : Nat} {isRoot : Bool} {v : Variable} {commands : List Command}
    (h : v.typeCommands gridRank isRoot = .ok commands) (hv : v.Distinct)
    (hplain : ∀ n fs, dict n fs ∈ v.parts → ∀ g ∈ fs, isGenerated g.name = false) :
    (∀ d ∈ v.outline gridRank, d.Clear) ↔ v.AvoidsFormals := by
  induction v generalizing isRoot commands with
  | leaf n =>
    obtain ⟨d, hd, -⟩ := Node.leafCommands_eq_ok h
    refine iff_of_true ?_ fun m fs hm ↦ by cases mem_parts_leaf.mp hm
    rw [outline, hd]
    simp only [List.forall_mem_cons]
    exact ⟨d.clear_outline n.name, Declaration.clear_of_scopes rfl, List.forall_mem_nil _⟩
  | dict n fs ih =>
    obtain ⟨-, inner, -, -, hinner, -, -⟩ := typeCommands_dict_eq_ok h
    have hcode : ∀ f ∈ fs, ∃ isRoot commands, f.typeCommands gridRank isRoot = .ok commands := by
      intro f hf
      obtain ⟨own, -, hown⟩ := exists_of_forall₂_left hinner hf
      exact ⟨false, own, hown⟩
    have hnames := hv n fs (self_mem_parts _)
    have hbody : (typeNames (fs.map (·.name)) ++ fs.map (·.name) ++
        n.accessedSlots.flatMap accessorNames).Nodup := by
      refine nodup_struct hnames (fun name hname ↦ ?_) (nodup_accessorNames n)
      obtain ⟨g, hg, rfl⟩ := List.mem_map.mp hname
      exact hplain n fs (self_mem_parts _) g hg
    have hfields : (∀ d ∈ fs.flatMap (outline gridRank), d.Clear) ↔ ∀ f ∈ fs, f.AvoidsFormals := by
      rw [List.forall_mem_flatMap]
      refine forall₂_congr fun f hf ↦ ?_
      obtain ⟨isRoot, own, hown⟩ := hcode f hf
      refine ih f hf hown (fun m gs hm ↦ ?_) fun m gs hm ↦ ?_
      · exact hv m gs (mem_parts_dict.mpr (Or.inr ⟨f, hf, hm⟩))
      · exact hplain m gs (mem_parts_dict.mpr (Or.inr ⟨f, hf, hm⟩))
    have hslots : (∀ d ∈ n.accessedSlots.flatMap (fieldOutline n fs), d.Clear) ↔
        (n.accessedSlots ≠ [] → ∀ g ∈ fs, g.name ≠ "context" ∧ g.name ≠ "value") := by
      rw [List.forall_mem_flatMap]
      simp only [clear_fieldOutline_iff hnames]
      exact ⟨fun hclear hne ↦ hclear _ (List.head_mem hne),
        fun havoids slot hslot ↦ havoids (List.ne_nil_of_mem hslot)⟩
    have hconstant : ∀ d ∈ [Declaration.constant n.name (List.range gridRank)], d.Clear := by
      simp [Declaration.Clear, Declaration.scopes]
    rw [outline_dict, List.forall_mem_cons, and_iff_left hconstant, Declaration.clear_struct_iff,
      names_members hcode, and_iff_right hbody, avoidsFormals_dict_iff, List.forall_mem_append,
      List.forall_mem_append, and_iff_left (clear_storedFields fs), hfields, hslots, and_comm]

end Variable

/-! ## Scopes of calls -/

namespace Call

theorem names_outline {f : Function} {c : Call} {gridRank : Nat}
    (h : ∀ v ∈ c.roots, ∃ isRoot commands, v.typeCommands gridRank isRoot = .ok commands) :
    (c.outline f gridRank).filterMap Declaration.name? =
      typeNames (c.roots.map (·.name)) ++ ["CallData", "call_data", "_trampoline"] := by
  have hgap : (if c.roots.isEmpty then [] else [.blankLine]).filterMap Declaration.name? = [] := by
    split <;> rfl
  have hmark : (if f.differentiable then [.mark "[Differentiable]"] else []).filterMap
      Declaration.name? = [] := by
    split <;> rfl
  rw [outline, trampolineOutline, List.filterMap_append, List.filterMap_append,
    List.filterMap_append, List.filterMap_append, Variable.names_types h, hgap, hmark]
  simp [Declaration.name?]

theorem nodup_names_outline {names : List String} (h : names.Nodup) :
    (typeNames names ++ ["CallData", "call_data", "_trampoline"]).Nodup := by
  have hplain : ∀ x ∈ ["CallData", "call_data", "_trampoline"], isGenerated x = false := by
    decide
  rw [List.nodup_append']
  refine ⟨nodup_typeNames h, by decide, fun x hx hfixed ↦ ?_⟩
  have hgenerated := isGenerated_of_mem_typeNames hx
  rw [hplain x hfixed] at hgenerated
  cases hgenerated

/-- Outside of the types of variables there is no clash. -/
theorem clear_outline_iff {f : Function} {c : Call} {gridRank : Nat}
    (h : (c.roots.map (·.name)).Nodup) : (∀ d ∈ c.outline f gridRank, d.Clear) ↔
      ∀ v ∈ c.roots, ∀ d ∈ v.outline gridRank, d.Clear := by
  have hgap : ∀ d ∈ (if c.roots.isEmpty then [] else [Declaration.blankLine]), d.Clear := by
    split <;> simp [Declaration.Clear, Declaration.scopes]
  have hdata : (Declaration.struct "CallData" (c.roots.map (storedField ·.name))).Clear := by
    rw [Declaration.clear_struct_iff, names_storedFields]
    exact ⟨h, clear_storedFields c.roots⟩
  have hmiddle : ∀ d ∈ [Declaration.struct "CallData" (c.roots.map (storedField ·.name)),
      .field "ParameterBlock<CallData>" "call_data", .blankLine], d.Clear := by
    simp only [List.forall_mem_cons]
    exact ⟨hdata, Declaration.clear_of_scopes rfl, Declaration.clear_of_scopes rfl,
      List.forall_mem_nil _⟩
  have htrampoline : ∀ d ∈ c.trampolineOutline f, d.Clear := by
    have hformals : ((c.roots.map Variable.trampolineFormal).map (·.name) ++
        [Statement.evaluate (c.statement f)].filterMap Statement.local?).Nodup := by
      rw [List.map_map]
      exact (List.append_nil (c.roots.map (·.name))).symm ▸ h
    rw [trampolineOutline, List.forall_mem_append, List.forall_mem_singleton,
      Declaration.clear_function_iff]
    refine ⟨?_, hformals⟩
    split <;> simp [Declaration.Clear, Declaration.scopes]
  rw [outline, List.forall_mem_append, List.forall_mem_append, List.forall_mem_append,
    and_iff_left htrampoline, and_iff_left hmiddle, and_iff_left hgap, List.forall_mem_flatMap]

/-- **Where names clash.** Let the parameters of a function have different names that are not
reserved, and let no field of a struct that it takes or returns be named like something generated. The
code that is built for a call of it is the text of an outline. No scope in it declares a name twice,
neither the module, `CallData`, a struct or a pair inside, an accessor with its locals, nor the
trampoline, if and only if no accessor loads a field named `context` or `value`. -/
theorem nodup_scopes_iff_of_build {lookup : Lookup} {settings : Settings} {f : Function}
    {a : Arguments} {o : Vectorization} {b : BuiltCall} (h : build lookup settings f a o = .ok b)
    (hf : f.Named) (hfields : ∀ t ∈ f.types, ∀ name ∈ t.fieldNames, isGenerated name = false) :
    b.code = Code.text (b.call.outline f b.gridRank) ∧
      ((∀ scope ∈ Code.scopes (b.call.outline f b.gridRank), scope.Nodup) ↔
        ∀ v ∈ b.call.roots, v.AvoidsFormals) := by
  have hbound := bound_of_build h
  have hdistinct := distinct_of_build h
  obtain ⟨c, -, -, -, m, hm, -⟩ := build_eq_ok_iff.mp h
  have hown := typeCommands_of_emit hm
  have hnames := hbound.nodup_names hdistinct hf
  refine ⟨code_of_build h, ?_⟩
  have houter : ((b.call.outline f b.gridRank).filterMap Declaration.name?).Nodup := by
    rw [names_outline fun v hv ↦ ⟨true, hown v hv⟩]
    exact nodup_names_outline hnames
  rw [Code.nodup_scopes_iff, and_iff_right houter, clear_outline_iff hnames]
  refine forall₂_congr fun v hv ↦ ?_
  obtain ⟨own, hown⟩ := hown v hv
  refine Variable.clear_outline_iff hown (hdistinct.fields v hv) fun n fs hn g hg ↦ ?_
  obtain ⟨t, ht, hname⟩ := hbound.exists_mem_fieldNames hv hn hg
  exact hfields t ht g.name hname

/-- A kernel that takes a point. -/
def locate : Function where
  name := "locate"
  params := [
    { name := "p",
      type := .struct "Point" [("x", .scalar .float), ("y", .scalar .float)] true }]

/-- A point as a dictionary. -/
def plainPoint : Arguments where
  args := [.dict [("x", .float 1), ("y", .float 2)]]

/-- Points have accessors without a clash. -/
theorem nodup_scopes_plainPoint : ∃ b,
    build ⟨.standard, .builtin⟩ {} locate plainPoint {} = .ok b ∧
      b.code = Code.text (b.call.outline locate b.gridRank) ∧
        ((∀ scope ∈ Code.scopes (b.call.outline locate b.gridRank), scope.Nodup) ↔
          ∀ v ∈ b.call.roots, v.AvoidsFormals) := by
  have hbuilds : (build ⟨.standard, .builtin⟩ {} locate plainPoint {}).toOption.isSome := by
    decide +kernel
  obtain ⟨b, hb⟩ := Option.isSome_iff_exists.mp hbuilds
  have h := toOption_eq_some_iff.mp hb
  exact ⟨b, h, nodup_scopes_iff_of_build h ⟨by decide, by decide⟩ (by decide)⟩

/-- A kernel that takes a point with a value. -/
def gauge : Function where
  name := "measure"
  params := [
    { name := "p",
      type := .struct "Point" [("value", .scalar .float), ("y", .scalar .float)] true }]

def valuedPoint : Arguments where
  args := [.dict [("value", .float 1), ("y", .float 2)]]

/-- **A name that is declared twice.** The accessor that loads the point has a formal parameter and a
local of the name `value`. -/
theorem exists_clash : gauge.Named ∧
    (∀ t ∈ gauge.types, ∀ name ∈ t.fieldNames, isGenerated name = false) ∧
      ∃ b, build ⟨.standard, .builtin⟩ {} gauge valuedPoint {} = .ok b ∧
        b.code = Code.text (b.call.outline gauge b.gridRank) ∧
          ∃ scope ∈ Code.scopes (b.call.outline gauge b.gridRank), ¬ scope.Nodup := by
  have hscope : ∃ b ∈ (build ⟨.standard, .builtin⟩ {} gauge valuedPoint {}).toOption,
      ["context", "value", "value", "y"] ∈ Code.scopes (b.call.outline gauge b.gridRank) := by
    decide +kernel
  obtain ⟨b, hb, hscope⟩ := hscope
  have h := toOption_eq_some_iff.mp hb
  refine ⟨⟨by decide, by decide⟩, by decide, b, h, code_of_build h, ?_⟩
  exact ⟨["context", "value", "value", "y"], hscope, by decide⟩

end Call

end KernelCall
