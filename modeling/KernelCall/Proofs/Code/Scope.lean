import KernelCall.Call.Emit
import KernelCall.Proofs.Text.Count

/-!
# Reading generated code

The constant of a variable is declared by a line of the generated code, and two things tell which
variable it belongs to: the name in that line, and the structs that are open around it. This module
reads constants back from both. A constant is looked up by its scope and its name, and the first
declaration counts.

What makes look-ups local is that generated code closes what it opens. Code that only declares inside
a struct of its own cannot be mistaken for the code of another variable in the same scope.
-/

namespace KernelCall.Code

/-! ## Constants -/

/-- Reads axes with commas between them. -/
def readAxes? (cs : List Char) : Option (List Nat) :=
  (cs.splitOn ',').mapM fun ds ↦ if ds.isEmpty then none else Text.readDigits 0 ds

/-- The axes that a command declares the constant of `name` with: a list in braces, or the number 0
in the place of an empty list. -/
def Command.axes? (name : String) : Command → Option (List Nat)
  | .statement text =>
    if text = "static const int _m_" ++ name ++ " = 0" then some []
    else do
      let rest ← text.toList.dropPrefix? ("static const int[] _m_" ++ name ++ " = \x7b ").toList
      readAxes? (← rest.dropSuffix? " \x7d".toList)
  | _ => none

theorem readAxes?_intercalate {axes : List Nat} (h : axes ≠ []) :
    readAxes? (",".intercalate (axes.map toString)).toList = some axes := by
  have hcomma : ∀ ds ∈ axes.map fun k ↦ (toString k).toList, ',' ∉ ds := by
    intro ds hds hmem
    obtain ⟨k, -, rfl⟩ := List.mem_map.mp hds
    exact absurd (Text.isDigit_of_mem_toString hmem) (by decide)
  have hne : (axes.map fun k ↦ (toString k).toList) ≠ [] := by
    rw [ne_eq, List.map_eq_nil_iff]
    exact h
  rw [readAxes?, String.toList_intercalate, List.map_map]
  change ((List.splitOn ',' ([','].intercalate (axes.map fun k ↦ (toString k).toList))).mapM _) = _
  rw [List.splitOn_intercalate ',' hcomma hne, mapM_eq_some_iff,
    List.forall₂_map_left_iff, List.forall₂_same]
  intro k _
  rw [if_neg (by simp)]
  exact Text.readDigits_toString k

private theorem mappingConstant_of_ne_nil (name : String) {axes : List Nat} (h : axes ≠ []) :
    mappingConstant name axes = .statement ("static const int[] _m_" ++ name ++ " = \x7b " ++
      ",".intercalate (axes.map toString) ++ " \x7d") := by
  rcases axes with _ | ⟨k, ks⟩
  · exact absurd rfl h
  · rfl

/-- A list and a number are told apart by what follows the type. -/
private theorem list_ne_number (u v : String) :
    "static const int[] _m_" ++ u ≠ "static const int _m_" ++ v := by
  intro h
  have h := congrArg String.toList h
  simp at h

/-- **Constants read back.** -/
theorem axes?_mappingConstant (name : String) (axes : List Nat) :
    (mappingConstant name axes).axes? name = some axes := by
  by_cases haxes : axes = []
  · rw [haxes]
    exact if_pos rfl
  · rw [mappingConstant_of_ne_nil name haxes, Command.axes?]
    rw [if_neg (by simpa only [String.append_assoc] using list_ne_number _ _)]
    rw [String.append_assoc, String.toList_append, List.dropPrefix?_append_of_beq _ (by simp)]
    change (List.dropSuffix? _ _).bind readAxes? = _
    rw [String.toList_append, List.dropSuffix?_eq_some_iff.mpr ⟨_, rfl, by simp⟩]
    exact readAxes?_intercalate haxes

example : (Command.statement "static const int[] _m_x = \x7b 1,0 \x7d").axes? "x" = some [1, 0] := by
  decide +kernel

/-- The structs and blocks that are open, innermost first. Blocks have no name. -/
abbrev Scope := List (Option String)

/-- The scope behind a command. -/
def Command.scope (s : Scope) : Command → Scope
  | .openStruct name => some name :: s
  | .openBlock => none :: s
  | .closeStruct => s.tail
  | .closeBlock => s.tail
  | _ => s

/-- The scope behind commands in order. -/
def scopeAfter (s : Scope) (cs : List Command) : Scope := cs.foldl Command.scope s

/-- The axes of the constant of `name` in the scope `target`, in code that starts in a scope. -/
def constant? (target : Scope) (name : String) : Scope → List Command → Option (List Nat)
  | _, [] => none
  | s, c :: cs =>
    (if s = target then c.axes? name else none).or (constant? target name (c.scope s) cs)

variable {target s : Scope} {name type : String} {c : Command} {cs ds : List Command}

theorem constant?_cons_of_axes? (h : c.axes? name = none) :
    constant? target name s (c :: cs) = constant? target name (c.scope s) cs := by
  rw [constant?, h, ite_self, Option.none_or]

theorem constant?_append : constant? target name s (cs ++ ds) =
    (constant? target name s cs).or (constant? target name (scopeAfter s cs) ds) := by
  induction cs generalizing s with
  | nil => rfl
  | cons c cs ih =>
    rw [List.cons_append, constant?, constant?, ih, Option.or_assoc]
    rfl

/-- The code ends in the scope that it starts in, and declares constants in no scope outside. -/
structure Closed (cs : List Command) : Prop where
  scope : ∀ s, scopeAfter s cs = s
  inside : ∀ target name s, ¬ s <:+ target → constant? target name s cs = none

theorem closed_nil : Closed [] := ⟨fun _ ↦ rfl, fun _ _ _ _ ↦ rfl⟩

theorem Closed.append (hcs : Closed cs) (hds : Closed ds) : Closed (cs ++ ds) := by
  constructor
  · intro s
    rw [scopeAfter, List.foldl_append]
    exact (hds.scope _).trans (hcs.scope s)
  · intro target name s h
    rw [constant?_append, hcs.inside _ _ _ h, hcs.scope, hds.inside _ _ _ h]
    rfl

theorem closed_flatten {css : List (List Command)} (h : ∀ cs ∈ css, Closed cs) :
    Closed css.flatten := by
  induction css with
  | nil => exact closed_nil
  | cons cs css ih =>
    rw [List.forall_mem_cons] at h
    exact h.1.append (ih h.2)

/-- Code that neither opens nor closes anything is closed. -/
theorem closed_of_level (h : ∀ c ∈ cs, ∀ s, c.scope s = s) : Closed cs := by
  induction cs with
  | nil => exact closed_nil
  | cons c cs ih =>
    rw [List.forall_mem_cons] at h
    have hcs := ih h.2
    constructor
    · intro s
      rw [scopeAfter, List.foldl_cons, h.1]
      exact hcs.scope s
    · intro target name s hs
      have hne : s ≠ target := by
        rintro rfl
        exact hs List.suffix_rfl
      rw [constant?, if_neg hne, h.1, hcs.inside _ _ _ hs]
      rfl

private theorem constant?_wrapped {first last : Command} (hfirst : first.axes? name = none)
    (hlast : last.axes? name = none) :
    constant? target name s ([first] ++ cs ++ [last]) =
      constant? target name (first.scope s) cs := by
  rw [List.append_assoc, List.singleton_append, constant?_cons_of_axes? hfirst, constant?_append,
    constant?_cons_of_axes? hlast]
  exact Option.or_none

theorem Closed.block (h : Closed cs) : Closed ([.openBlock] ++ cs ++ [.closeBlock]) := by
  constructor
  · intro s
    rw [scopeAfter, List.foldl_append, List.foldl_append]
    exact congrArg List.tail (h.scope (none :: s))
  · intro target name s hs
    rw [constant?_wrapped rfl rfl]
    apply h.inside
    exact fun hsuffix ↦ hs ((List.suffix_cons none s).trans hsuffix)

/-- The code ends in the scope that it starts in, and declares constants only inside a struct. -/
structure Enclosed (type : String) (cs : List Command) : Prop where
  scope : ∀ s, scopeAfter s cs = s
  inside : ∀ target name s, ¬ some type :: s <:+ target → constant? target name s cs = none

theorem Enclosed.closed (h : Enclosed type cs) : Closed cs := by
  constructor
  · exact h.scope
  · intro target name s hs
    apply h.inside
    exact fun hsuffix ↦ hs ((List.suffix_cons (some type) s).trans hsuffix)

theorem Closed.struct (h : Closed cs) (type : String) :
    Enclosed type ([.openStruct type] ++ cs ++ [.closeStruct]) := by
  constructor
  · intro s
    rw [scopeAfter, List.foldl_append, List.foldl_append]
    exact congrArg List.tail (h.scope (some type :: s))
  · intro target name s hs
    rw [constant?_wrapped rfl rfl]
    exact h.inside _ _ _ hs

theorem axes?_typeAlias (name given text : String) :
    (Command.typeAlias given text).axes? name = none := by
  have hlist : "typealias " ++ given ++ " = " ++ text ≠ "static const int _m_" ++ name ++ " = 0" := by
    intro h
    have h := congrArg String.toList h
    simp at h
  rw [Command.typeAlias, Command.axes?, if_neg hlist]
  apply Option.bind_eq_none_iff.mpr
  intro rest hrest
  obtain ⟨front, heq, hfront⟩ := List.dropPrefix?_eq_some_iff.mp hrest
  rw [eq_of_beq hfront] at heq
  simp at heq

theorem enclosed_typeAlias (type given text : String) :
    Enclosed type [.typeAlias given text] := by
  constructor
  · intro s
    rfl
  · intro target name s _
    rw [constant?_cons_of_axes? (axes?_typeAlias _ _ _)]
    rfl

/-! ## Constants of one name -/

/-- What is looked up in the scope `target` is the constant of `name` in the scope `s`, or stands
inside the struct of that name. -/
def Under (s : Scope) (name : String) (target : Scope) (x : String) : Prop :=
  target = s ∧ x = name ∨ some ("_t_" ++ name) :: s <:+ target

/-- Further along a path one stays inside. -/
theorem Under.inner {x y : String} (h : Under s name target x) :
    Under s name (some ("_t_" ++ x) :: target) y := by
  apply Or.inr
  rcases h with ⟨rfl, rfl⟩ | hsuffix
  · exact List.suffix_rfl
  · exact hsuffix.trans (List.suffix_cons _ _)

theorem not_cons_suffix_self {α : Type} (x : α) (xs : List α) : ¬ x :: xs <:+ xs := by
  intro h
  have hlen := h.length_le
  rw [List.length_cons] at hlen
  omega

end KernelCall.Code
