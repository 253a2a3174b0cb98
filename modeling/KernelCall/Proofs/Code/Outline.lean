import KernelCall.Call.Emit
import KernelCall.Proofs.Code.Block
import KernelCall.Proofs.Text.Lines

/-!
# The outline of generated code

Generated code is a list of declarations: aliases, constants, fields, functions and structs around
further declarations. Written out as commands, a declaration is text in which names are spelled out;
the outline keeps the names apart, so that one can ask which of them are declared in one scope.

A scope is the body of a struct, or a function's formal parameters together with the locals of its
body. What is declared in an inner scope is not declared in the outer one, apart from the name of the
struct or function itself. Generated functions have no inner blocks.
-/

namespace KernelCall.Code

/-- A statement in the body of a function. -/
inductive Statement where
  | declare (type name : String)
  | assign (target value : String)
  | evaluate (text : String)
  deriving DecidableEq, Repr

namespace Statement

def command : Statement → Command
  | declare type name => .declare type name
  | assign target value => .assign target value
  | evaluate text => .statement text

/-- The local that a statement declares. -/
def local? : Statement → Option String
  | declare _ name => some name
  | _ => none

end Statement

/-- A formal parameter. Its direction and other marks stand in front of the type. -/
structure Formal where
  type : String
  name : String
  deriving DecidableEq, Repr

def Formal.text (p : Formal) : String := p.type ++ " " ++ p.name

/-- A declaration, or a line between declarations. -/
inductive Declaration where
  | typeAlias (name type : String)
  /-- The constant that lists the axes of a variable. -/
  | constant (subject : String) (axes : List Nat)
  | field (type name : String)
  | function (name : String) (formals : List Formal) (body : List Statement)
  | struct (name : String) (members : List Declaration)
  /-- A line that marks the declaration below it. -/
  | mark (text : String)
  | blankLine
  deriving Repr

namespace Declaration

mutual

private theorem induct {motive : Declaration → Prop} (struct : ∀ name members,
    (∀ d ∈ members, motive d) → motive (struct name members))
    (plain : ∀ d, (∀ name members, d ≠ .struct name members) → motive d) : ∀ d, motive d
  | .struct name members => struct name members (inductMembers struct plain members)
  | .typeAlias _ _ => plain _ nofun
  | .constant _ _ => plain _ nofun
  | .field _ _ => plain _ nofun
  | .function _ _ _ => plain _ nofun
  | .mark _ => plain _ nofun
  | .blankLine => plain _ nofun

private theorem inductMembers {motive : Declaration → Prop} (struct : ∀ name members,
    (∀ d ∈ members, motive d) → motive (struct name members))
    (plain : ∀ d, (∀ name members, d ≠ .struct name members) → motive d) :
    ∀ ds : List Declaration, ∀ d ∈ ds, motive d
  | [] => by simp
  | d :: ds => List.forall_mem_cons.mpr ⟨induct struct plain d, inductMembers struct plain ds⟩

end

/-- Induction over declarations: what holds of a struct once it holds of all its members, and holds
of all else, holds of every declaration. -/
@[elab_as_elim]
theorem memberwise {motive : Declaration → Prop} (struct : ∀ name members,
    (∀ d ∈ members, motive d) → motive (struct name members))
    (plain : ∀ d, (∀ name members, d ≠ .struct name members) → motive d) (d : Declaration) :
    motive d :=
  induct struct plain d

/-! ## Writing -/

mutual

/-- The commands that write a declaration. -/
def commands : Declaration → List Command
  | typeAlias name type => [.typeAlias name type]
  | constant subject axes => [mappingConstant subject axes]
  | field type name => [.declare type name]
  | function name formals body =>
    [.line ("void " ++ name ++ "(" ++ ", ".intercalate (formals.map Formal.text) ++ ")"),
      .openBlock] ++ body.map Statement.command ++ [.closeBlock]
  | struct name members => [.openStruct name] ++ commandsOf members ++ [.closeStruct]
  | mark text => [.line text]
  | blankLine => [.blankLine]

def commandsOf : List Declaration → List Command
  | [] => []
  | d :: ds => d.commands ++ commandsOf ds

end

theorem commandsOf_eq_flatMap (ds : List Declaration) : commandsOf ds = ds.flatMap commands := by
  induction ds with
  | nil => rfl
  | cons d ds ih => rw [commandsOf, ih, List.flatMap_cons]

theorem commands_struct (name : String) (members : List Declaration) :
    (struct name members).commands =
      [.openStruct name] ++ members.flatMap commands ++ [.closeStruct] := by
  rw [commands, commandsOf_eq_flatMap]

/-! ## Scopes -/

/-- The name that is declared in the scope a declaration stands in. -/
def name? : Declaration → Option String
  | typeAlias name _ => some name
  | constant subject _ => some ("_m_" ++ subject)
  | field _ name => some name
  | function name .. => some name
  | struct name _ => some name
  | mark _ => none
  | blankLine => none

mutual

/-- The scopes inside a declaration, each with the names that are declared in it. -/
def scopes : Declaration → List (List String)
  | function _ formals body => [formals.map (·.name) ++ body.filterMap Statement.local?]
  | struct _ members => members.filterMap name? :: scopesOf members
  | _ => []

def scopesOf : List Declaration → List (List String)
  | [] => []
  | d :: ds => d.scopes ++ scopesOf ds

end

theorem scopesOf_eq_flatMap (ds : List Declaration) : scopesOf ds = ds.flatMap scopes := by
  induction ds with
  | nil => rfl
  | cons d ds ih => rw [scopesOf, ih, List.flatMap_cons]

/-- No scope inside declares a name twice. -/
def Clear (d : Declaration) : Prop := ∀ scope ∈ d.scopes, scope.Nodup

theorem clear_of_scopes {d : Declaration} (h : d.scopes = []) : d.Clear := by
  rw [Clear, h]
  exact List.forall_mem_nil _

theorem clear_struct_iff {name : String} {members : List Declaration} :
    (struct name members).Clear ↔
      (members.filterMap name?).Nodup ∧ ∀ d ∈ members, d.Clear := by
  rw [Clear, scopes, scopesOf_eq_flatMap, List.forall_mem_cons]
  refine and_congr_right fun _ ↦ ?_
  simp only [List.mem_flatMap, forall_exists_index, and_imp]
  exact ⟨fun h d hd scope hscope ↦ h scope d hd hscope, fun h scope d hd ↦ h d hd scope⟩

theorem clear_function_iff {name : String} {formals : List Formal} {body : List Statement} :
    (function name formals body).Clear ↔
      (formals.map (·.name) ++ body.filterMap Statement.local?).Nodup := by
  rw [Clear, scopes, List.forall_mem_singleton]

end Declaration

/-- The scopes of a module, the outermost first. -/
def scopes (ds : List Declaration) : List (List String) :=
  ds.filterMap Declaration.name? :: ds.flatMap Declaration.scopes

theorem nodup_scopes_iff {ds : List Declaration} : (∀ scope ∈ scopes ds, scope.Nodup) ↔
    (ds.filterMap Declaration.name?).Nodup ∧ ∀ d ∈ ds, d.Clear := by
  have h : scopes ds = (Declaration.struct "" ds).scopes := by
    rw [scopes, Declaration.scopes, Declaration.scopesOf_eq_flatMap]
  rw [h]
  exact Declaration.clear_struct_iff

/-! ## Levels -/

theorem levelAfter_append (level : Nat) (cs ds : List Command) :
    levelAfter level (cs ++ ds) = levelAfter (levelAfter level cs) ds := by
  rw [levelAfter, Block.runAll_append, Block.runAll_eq]
  rfl

/-- The commands end on the level that they start on. -/
def Level (cs : List Command) : Prop := ∀ level, levelAfter level cs = level

theorem Level.append {cs ds : List Command} (hcs : Level cs) (hds : Level ds) :
    Level (cs ++ ds) := fun level ↦ by
  rw [levelAfter_append, hcs, hds]

theorem level_flatMap {α : Type} {f : α → List Command} {xs : List α} (h : ∀ x ∈ xs, Level (f x)) :
    Level (xs.flatMap f) := by
  induction xs with
  | nil => exact fun _ ↦ rfl
  | cons x xs ih =>
    rw [List.forall_mem_cons] at h
    exact h.1.append (ih h.2)

/-- What opens is closed behind commands that end where they start. -/
theorem Level.wrapped {cs : List Command} (h : Level cs) {first last : Command}
    (hfirst : ∀ level, levelAfter level [first] = level + 1)
    (hlast : ∀ level, levelAfter (level + 1) [last] = level) : Level ([first] ++ cs ++ [last]) := by
  intro level
  rw [levelAfter_append, levelAfter_append, hfirst, h, hlast]

theorem written_struct {cs : List Command} (h : Level cs) (level : Nat) (name : String) :
    written level ([.openStruct name] ++ cs ++ [.closeStruct]) =
      margin level ++ "struct " ++ name ++ "\n" ++ margin level ++ "\x7b\n" ++
        written (level + 1) cs ++ margin level ++ "\x7d;\n" := by
  have hopen : levelAfter level [.openStruct name] = level + 1 := rfl
  rw [written_append, written_append, levelAfter_append, hopen, h]
  simp [written, Block.run, Block.addLine, Block.deeper, Block.shallower, String.append_assoc]

namespace Declaration

theorem level_body (body : List Statement) : Level (body.map Statement.command) := by
  rw [List.map_eq_flatMap]
  refine level_flatMap fun s _ ↦ ?_
  cases s <;> exact fun level ↦ rfl

/-- **A declaration ends where it starts.** -/
theorem level_commands (d : Declaration) : Level d.commands := by
  induction d using memberwise with
  | struct name members ih =>
    rw [commands_struct]
    exact (level_flatMap ih).wrapped (fun _ ↦ rfl) fun _ ↦ rfl
  | plain d hplain =>
    cases d with
    | struct name members => exact absurd rfl (hplain name members)
    | function name formals body =>
      have hhead : Level [.line ("void " ++ name ++ "(" ++
          ", ".intercalate (formals.map Formal.text) ++ ")")] := fun _ ↦ rfl
      have hblock : Level ([.openBlock] ++ body.map Statement.command ++ [.closeBlock]) :=
        (level_body body).wrapped (fun _ ↦ rfl) fun _ ↦ rfl
      exact hhead.append hblock
    | constant subject axes => cases axes <;> exact fun _ ↦ rfl
    | typeAlias | field | mark | blankLine => exact fun _ ↦ rfl

theorem written_append (level : Nat) (ds es : List Declaration) :
    written level ((ds ++ es).flatMap commands) =
      written level (ds.flatMap commands) ++ written level (es.flatMap commands) := by
  rw [List.flatMap_append, Code.written_append, level_flatMap fun d _ ↦ level_commands d]

end Declaration

/-- The text of declarations, the outermost ones at the margin. -/
def text (ds : List Declaration) : String := written 0 (ds.flatMap Declaration.commands)

theorem text_append (ds es : List Declaration) : text (ds ++ es) = text ds ++ text es :=
  Declaration.written_append 0 ds es

/-! ## Rows -/

open Text

/-- What the block holds are whole rows. -/
def Block.InRows (b : Block) : Prop := ∃ rows, b.text = unlines rows

namespace Block.InRows

variable {b : Block}

theorem addLine (h : b.InRows) (line : String) : (b.addLine line).InRows := by
  obtain ⟨rows, hrows⟩ := h
  refine ⟨rows ++ [margin b.indent ++ line], ?_⟩
  rw [unlines_append, unlines_cons, unlines_nil, ← hrows]
  simp [Block.addLine, String.append_assoc]

theorem addBlankLine (h : b.InRows) : b.addBlankLine.InRows := by
  obtain ⟨rows, hrows⟩ := h
  refine ⟨rows ++ [""], ?_⟩
  rw [unlines_append, unlines_cons, unlines_nil, ← hrows]
  simp [Block.addBlankLine]

theorem run (h : b.InRows) (c : Command) : (b.run c).InRows := by
  cases c with
  | line | statement | openBlock => exact h.addLine _
  | closeBlock | closeStruct =>
    have hshallower : b.shallower.InRows := h
    exact hshallower.addLine _
  | blankLine => exact h.addBlankLine
  | openStruct name => exact (h.addLine _).addLine _
  | code text =>
    rw [Block.run]
    induction Text.lines text.toList generalizing b with
    | nil => exact h
    | cons line lines ih =>
      rw [List.foldl_cons]
      split
      · exact ih h.addBlankLine
      · exact ih (h.addLine _)

end Block.InRows

/-- Commands write whole rows. -/
theorem exists_written_eq_unlines (level : Nat) (cs : List Command) :
    ∃ rows, written level cs = unlines rows := by
  have hrun : ∀ b : Block, b.InRows → (b.runAll cs).InRows := by
    induction cs with
    | nil => exact fun _ h ↦ h
    | cons c cs ih => exact fun b h ↦ ih _ (h.run c)
  exact hrun { indent := level } ⟨[], rfl⟩

/-- The row stands in a text that is written at a level, inside the structs of the given names, the
outermost first. -/
inductive Stands (row : String) : (level : Nat) → (types : List String) → (text : String) → Prop
  | row (level : Nat) : Stands row level [] (margin level ++ row ++ "\n")
  | struct {level : Nat} {types : List String} {text : String} (name : String) :
    Stands row (level + 1) types text →
      Stands row level (name :: types) (margin level ++ "struct " ++ name ++ "\n" ++ margin level ++
        "\x7b\n" ++ text ++ margin level ++ "\x7d;\n")
  | among {level : Nat} {types : List String} {text : String} (before after : List String) :
    Stands row level types text → Stands row level types (unlines before ++ text ++ unlines after)

namespace Stands

variable {row : String} {level : Nat} {types : List String}

theorem append {es : List Declaration}
    (h : Stands row level types (written level (es.flatMap Declaration.commands)))
    (ds fs : List Declaration) :
    Stands row level types (written level ((ds ++ es ++ fs).flatMap Declaration.commands)) := by
  obtain ⟨before, hbefore⟩ := exists_written_eq_unlines level (ds.flatMap Declaration.commands)
  obtain ⟨after, hafter⟩ := exists_written_eq_unlines level (fs.flatMap Declaration.commands)
  rw [Declaration.written_append, Declaration.written_append, hbefore, hafter]
  exact h.among before after

theorem flatMap {α : Type} {g : α → List Declaration} {x : α} {xs : List α} (hx : x ∈ xs)
    (h : Stands row level types (written level ((g x).flatMap Declaration.commands))) :
    Stands row level types (written level ((xs.flatMap g).flatMap Declaration.commands)) := by
  obtain ⟨ys, zs, rfl⟩ := List.append_of_mem hx
  rw [List.flatMap_append, List.flatMap_cons, ← List.append_assoc]
  exact h.append _ _

theorem inside {members : List Declaration}
    (h : Stands row (level + 1) types (written (level + 1) (members.flatMap Declaration.commands)))
    (name : String) : Stands row level (name :: types)
      (written level ([Declaration.struct name members].flatMap Declaration.commands)) := by
  have hlevel : Level (members.flatMap Declaration.commands) :=
    level_flatMap fun d _ ↦ d.level_commands
  rw [List.flatMap_singleton, Declaration.commands_struct, written_struct hlevel]
  exact h.struct name

end Stands

end KernelCall.Code
