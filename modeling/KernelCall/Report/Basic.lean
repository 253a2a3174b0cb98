import KernelCall.Report.Source

/-!
# Error reports

A report shows an error together with the place in a text at which it points. The bounds of the
error's span count bytes, and the report takes them for offsets of characters. In a text that is
not ASCII the mark may therefore stand further to the right, or be lost past the end. Without a
mark, as in a text without characters, the report has its title alone.
-/

namespace KernelCall

/-- What a report shows below its title. -/
structure ReportBody where
  mark : Source.Mark
  /-- The last of the error's notes. -/
  note? : Option String
  help? : Option String
  deriving Repr

/-- An error shown in a file. -/
structure Report where
  title : String
  file : String
  body? : Option ReportBody
  deriving Repr

/-- The report of an error in a text that stands for a file. -/
def BindError.report (e : BindError) (file text : String) : Report where
  title := "Error: " ++ e.text
  file
  body? := (Source.mark? text (e.span text)).map fun mark ↦
    { mark, note? := e.notes.getLast?, help? := e.help }

namespace ReportBody

/-- The beginning of the mark in a file, line and column counted from 1. -/
def place (b : ReportBody) (file : String) : String :=
  s!"{file}:{b.mark.start.line + 1}:{b.mark.start.column + 1}"

end ReportBody

/-- The lines of a report. -/
def Report.lines (r : Report) : List String :=
  r.title :: match r.body? with
    | none => []
    | some b =>
      ["  --> " ++ b.place r.file] ++
      ((b.mark.text?.filter (· ≠ "")).map ("   | " ++ ·)).toList ++
      (b.help?.map ("   = help: " ++ ·)).toList ++
      (b.note?.map ("   = note: " ++ ·)).toList

end KernelCall
