import KernelCall.Code.Module

/-!
# What commands write

Commands only ever add to the text of a block, and what they add depends on the block through its
level alone. So what a list of commands writes can be said without a block, and lists of commands can
be compared by what they write.
-/

namespace KernelCall.Code

/-- What commands write at a level. -/
def written (level : Nat) (commands : List Command) : String :=
  (Block.runAll { indent := level } commands).text

/-- The level that commands lead to. -/
def levelAfter (level : Nat) (commands : List Command) : Nat :=
  (Block.runAll { indent := level } commands).indent

namespace Block

/-- The block that `b` becomes when the text of another one is added to it. -/
private def extend (b c : Block) : Block := { text := b.text ++ c.text, indent := c.indent }

private theorem addLine_eq (b : Block) (line : String) :
    b.addLine line = b.extend (addLine { indent := b.indent } line) := by
  simp [addLine, extend, String.append_assoc]

private theorem addBlankLine_eq (b : Block) :
    b.addBlankLine = b.extend (addBlankLine { indent := b.indent }) := by
  simp [addBlankLine, extend]

private theorem addCode_eq (b : Block) (lines : List (List Char)) :
    lines.foldl (fun b line ↦ if Text.isBlankLine line then b.addBlankLine
      else b.addLine (String.ofList line)) b =
        b.extend (lines.foldl (fun b line ↦ if Text.isBlankLine line then b.addBlankLine
          else b.addLine (String.ofList line)) { indent := b.indent }) := by
  induction lines generalizing b with
  | nil => simp [extend]
  | cons line lines ih =>
    rw [List.foldl_cons, List.foldl_cons, ih]
    by_cases hline : Text.isBlankLine line
    · rw [if_pos hline, if_pos hline, ih (addBlankLine _)]
      simp [addBlankLine, extend, String.append_assoc]
    · rw [if_neg hline, if_neg hline, ih (addLine _ _)]
      simp [addLine, extend, String.append_assoc]

private theorem run_eq (b : Block) (c : Command) :
    b.run c = b.extend (run { indent := b.indent } c) := by
  cases c with
  | line text => exact addLine_eq b text
  | statement text => exact addLine_eq b (text ++ ";")
  | code text => exact addCode_eq b _
  | blankLine => exact addBlankLine_eq b
  | openBlock => simp [run, addLine, deeper, extend, String.append_assoc]
  | closeBlock => simp [run, addLine, shallower, extend, String.append_assoc]
  | openStruct name => simp [run, addLine, deeper, extend, String.append_assoc]
  | closeStruct => simp [run, addLine, shallower, extend, String.append_assoc]

/-- **Commands add to a block** what they write at its level. -/
theorem runAll_eq (b : Block) (cs : List Command) : b.runAll cs =
    { text := b.text ++ written b.indent cs, indent := levelAfter b.indent cs } := by
  induction cs generalizing b with
  | nil => simp [written, levelAfter]
  | cons c cs ih =>
    rw [written, levelAfter, runAll_cons, runAll_cons, ih, run_eq, ih (run _ c)]
    simp [extend, String.append_assoc]

end Block

theorem written_append (level : Nat) (cs ds : List Command) :
    written level (cs ++ ds) = written level cs ++ written (levelAfter level cs) ds := by
  rw [written, Block.runAll_append, Block.runAll_eq]
  rfl

theorem written_cons (level : Nat) (c : Command) (cs : List Command) :
    written level (c :: cs) = written level [c] ++ written (levelAfter level [c]) cs :=
  written_append level [c] cs

theorem written_line (level : Nat) (text : String) (cs : List Command) :
    written level (.line text :: cs) = margin level ++ (text ++ ("\n" ++ written level cs)) := by
  rw [written_cons]
  simp [written, levelAfter, Block.run, Block.addLine, String.append_assoc]

theorem written_statement (level : Nat) (text : String) (cs : List Command) :
    written level (.statement text :: cs) =
      margin level ++ (text ++ (";\n" ++ written level cs)) := by
  rw [written_cons]
  simp [written, levelAfter, Block.run, Block.addLine, String.append_assoc]

end KernelCall.Code
