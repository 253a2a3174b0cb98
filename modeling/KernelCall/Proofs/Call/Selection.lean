import KernelCall.Proofs.Call.GridRank
import KernelCall.Proofs.Call.Outline
import KernelCall.Proofs.Call.Run
import KernelCall.Proofs.Code.Scope

/-!
# What the constants select

At run time the accessors of a variable receive the index vector of the dispatch, and each access to
a field narrows it down: `ctx(c, _m_x)` picks the entries of `c` that the constant of `x` lists. A
leaf inside of dictionaries is reached through the constants of all variables around it, one after
the other, yet its own constant lists axes of the whole dispatch.

This is right since the constant of a dictionary lists all axes in order and so passes the vector on
as it is, at any depth. The constants here are those that a reader of the generated code finds on the
way from the code of the root down to the leaf. Each of them is a row of the text, and the structs
that the row stands in are those of the way.

What is selected is there, since no leaf reaches beyond the rank of the dispatch. The exception is a
leaf that is pinned to the greatest word: one more than that is 0, so that the rank does not account
for the axis.
-/

namespace KernelCall

open Code

/-- A pair of accessors is closed if their heads and bodies neither open nor close anything. -/
private theorem closed_accessors {heads body heads' body' : List Command}
    (hheads : ∀ c ∈ heads, ∀ s, c.scope s = s) (hbody : ∀ c ∈ body, ∀ s, c.scope s = s)
    (hheads' : ∀ c ∈ heads', ∀ s, c.scope s = s) (hbody' : ∀ c ∈ body', ∀ s, c.scope s = s) :
    Closed (heads ++ ([.openBlock] ++ body ++ [.closeBlock]) ++
      (heads' ++ ([.openBlock] ++ body' ++ [.closeBlock]))) := by
  have hload := (closed_of_level hheads).append (closed_of_level hbody).block
  exact hload.append ((closed_of_level hheads').append (closed_of_level hbody').block)

theorem closed_slotAccessors (slot storage target : String) :
    Closed (slotAccessors slot storage target) := by
  have hload : ∀ c ∈ [.blankLine, loadHead slot target], ∀ s, c.scope s = s := by
    simp [loadHead, Command.scope]
  have hstore : ∀ c ∈ [.blankLine, storeHead slot target], ∀ s, c.scope s = s := by
    simp [storeHead, Command.scope]
  have hbody : ∀ verb, ∀ c ∈ [.statement ("this." ++ slot ++ verb)], ∀ s, Command.scope s c = s := by
    simp [Command.scope]
  rw [slotAccessors]
  split
  · exact closed_nil
  · exact closed_accessors hload (hbody _) hstore (hbody _)

/-- The type of a leaf declares no constant outside of its struct, if it has one. -/
theorem enclosed_commands (name : String) (d : CallData) :
    Enclosed ("_t_" ++ name) (d.commands name) := by
  cases d with
  | single storage => exact enclosed_typeAlias _ _ _
  | pair primal derivative target =>
    have hdeclare : ∀ c ∈ [Command.declare primal.text "primal",
        Command.declare derivative.text "derivative"], ∀ s, c.scope s = s := by
      simp [Command.declare, Command.scope]
    have hslots := (closed_slotAccessors "primal" primal.text target.name).append
      (closed_slotAccessors "derivative" derivative.text target.differentialName)
    have h := ((closed_of_level hdeclare).append hslots).struct ("_t_" ++ name)
    simpa [CallData.commands, DifferentialPair.commands] using h

theorem closed_fieldAccessors {t : KernelType} {fs : List Variable} {slot : Slot}
    {commands : List Command} (h : fieldAccessors t fs slot = .ok commands) : Closed commands := by
  obtain ⟨loads, hloads, h⟩ := bind_eq_ok_iff.mp h
  cases h
  have hload : ∀ c ∈ loads.flatten, ∀ s, c.scope s = s := by
    intro c hc
    obtain ⟨load, hload, hc⟩ := List.mem_flatten.mp hc
    obtain ⟨v, -, hv⟩ := exists_of_forall₂_right (mapM_eq_ok_iff.mp hloads) hload
    obtain ⟨u, -, hv⟩ := bind_eq_ok_iff.mp hv
    cases hv
    simp only [List.mem_cons, List.not_mem_nil, or_false] at hc
    rcases hc with rfl | rfl | rfl <;> exact fun s ↦ rfl
  have hstore : ∀ c ∈ fs.map (storeField slot), ∀ s, c.scope s = s := by
    intro c hc
    obtain ⟨v, -, rfl⟩ := List.mem_map.mp hc
    exact fun s ↦ rfl
  have hheads : ∀ c ∈ [.blankLine, .blankLine, loadHead slot.name (t.inSlot slot)],
      ∀ s, c.scope s = s := by simp [loadHead, Command.scope]
  have hheads' : ∀ c ∈ [.blankLine, storeHead slot.name (t.inSlot slot)], ∀ s, c.scope s = s := by
    simp [storeHead, Command.scope]
  simpa using closed_accessors hheads hload hheads' hstore

namespace Variable

variable {gridRank : Nat} {isRoot : Bool} {v : Variable} {own : List Command}

theorem closed_constant (name : String) (axes : List Nat) : Closed [mappingConstant name axes] := by
  apply closed_of_level
  intro c hc s
  rw [List.mem_singleton.mp hc]
  rcases axes with _ | ⟨k, ks⟩ <;> rfl

theorem exists_struct {n : Node} {fs : List Variable}
    (h : (dict n fs).typeCommands gridRank isRoot = .ok own) : ∃ inner rest,
      List.Forall₂ (fun f own ↦ f.typeCommands gridRank false = .ok own) fs inner ∧ Closed rest ∧
        own = [.openStruct ("_t_" ++ n.name)] ++ (inner.flatten ++ rest) ++ [.closeStruct] ++
          [mappingConstant n.name (List.range gridRank)] := by
  obtain ⟨t, inner, accessors, -, hinner, haccessors, rfl⟩ := typeCommands_dict_eq_ok h
  have hfields : ∀ c ∈ fs.map (fieldDeclaration ·.name), ∀ s, c.scope s = s := by
    intro c hc
    obtain ⟨f, -, rfl⟩ := List.mem_map.mp hc
    exact fun s ↦ rfl
  have hclosed : ∀ commands ∈ accessors, Closed commands := by
    intro commands hcommands
    obtain ⟨slot, -, hslot⟩ := exists_of_forall₂_right haccessors hcommands
    exact closed_fieldAccessors hslot
  refine ⟨inner, fs.map (fieldDeclaration ·.name) ++ accessors.flatten, hinner,
    (closed_of_level hfields).append (closed_flatten hclosed), ?_⟩
  simp

/-- **The code of a variable** is its type and its constant, and whatever constants the type
declares are inside the struct of the variable. -/
theorem exists_enclosed (h : v.typeCommands gridRank isRoot = .ok own) :
    ∃ type, Enclosed ("_t_" ++ v.name) type ∧
      own = type ++ [mappingConstant v.name (v.constantAxes gridRank)] := by
  induction v generalizing isRoot own with
  | leaf n =>
    obtain ⟨d, -, rfl⟩ := Node.leafCommands_eq_ok h
    exact ⟨_, enclosed_commands n.name d, rfl⟩
  | dict n fs ih =>
    obtain ⟨inner, rest, hinner, hrest, rfl⟩ := exists_struct h
    refine ⟨_, Closed.struct (Closed.append (closed_flatten fun code hcode ↦ ?_) hrest) _, rfl⟩
    obtain ⟨f, hf, hcode⟩ := exists_of_forall₂_right hinner hcode
    obtain ⟨type, htype, rfl⟩ := ih f hf hcode
    exact htype.closed.append (closed_constant _ _)

theorem constant?_own (h : v.typeCommands gridRank isRoot = .ok own) (s : Scope) :
    constant? s v.name s own = some (v.constantAxes gridRank) := by
  obtain ⟨type, htype, rfl⟩ := exists_enclosed h
  rw [constant?_append, htype.inside _ _ _ (not_cons_suffix_self _ s), htype.scope, constant?,
    if_pos rfl, axes?_mappingConstant]
  rfl

end Variable

/-! ## Selections -/

namespace Call

/-- A row of numbers. -/
def row : Arguments where
  args := [.buffer { element := .scalar .float, extents := [4] }]

end Call

end KernelCall
