import KernelCall.Proofs.Code.Outline
import KernelCall.Proofs.Text.Lines

/-!
# Code at another level

What declarations write at a level is what they write at the margin, with every row that is not empty
shifted by four columns a level. Written down by its rows, code is well bracketed: what a row with a
brace opens, a later row closes on the same level.

That a shift can be undone takes rows that stay rows. A name with the end of a line inside, or rows of
blanks alone, would come out different when the text at the margin is read line by line.
-/

namespace KernelCall.Code

open Text

variable {level j k : Nat} {row : String} {rows rows' : List String}

/-! ## Shifts -/

/-- A row shifted by levels of four columns; an empty row stays empty. -/
def shift (k : Nat) (row : String) : String :=
  if row = "" then "" else String.ofList (List.replicate (4 * k) ' ') ++ row

theorem margin_eq (k : Nat) : margin k = String.ofList (List.replicate (4 * k) ' ') := by
  induction k with
  | zero => rfl
  | succ k ih =>
    rw [margin, List.replicate_succ, String.join_cons]
    change "    " ++ margin k = _
    rw [ih, Nat.mul_succ, Nat.add_comm, ← List.replicate_append_replicate, String.ofList_append]
    rfl

theorem margin_append (j k : Nat) : margin k ++ margin j = margin (j + k) := by
  rw [margin_eq, margin_eq, margin_eq, ← String.ofList_append, List.replicate_append_replicate]
  congr 2
  omega

theorem shift_empty (k : Nat) : shift k "" = "" := rfl

theorem shift_of_ne (h : row ≠ "") : shift k row = margin k ++ row := by
  rw [shift, if_neg h, margin_eq]

theorem shift_zero (row : String) : shift 0 row = row := by
  by_cases h : row = ""
  · rw [h]
    rfl
  · rw [shift, if_neg h, Nat.mul_zero, List.replicate_zero, String.ofList_nil, String.empty_append]

theorem shift_shift (j k : Nat) (row : String) : shift k (shift j row) = shift (j + k) row := by
  by_cases h : row = ""
  · rw [h]
    rfl
  · have hne : shift j row ≠ "" := by
      rw [shift_of_ne h]
      simp [h]
    rw [shift_of_ne hne, shift_of_ne h, shift_of_ne h, ← String.append_assoc, margin_append]

/-! ## Brackets -/

/-- The row consists of a brace that opens or closes, blanks aside. -/
def IsBrace (row : String) : Prop :=
  row.toList.filter (!isBlank ·) ∈ ["\x7b".toList, "\x7d".toList, "\x7d;".toList]

instance : DecidablePred IsBrace := fun _ ↦ inferInstanceAs (Decidable (_ ∈ _))

/-- Rows on a level in which every brace that opens is closed later on, at the same margin, and what is
in between is one level deeper. -/
inductive Bracketed : Nat → List String → Prop
  | nil (level : Nat) : Bracketed level []
  | plain {level : Nat} {row : String} {rows : List String} : ¬ IsBrace row →
    Bracketed level rows → Bracketed level (row :: rows)
  | block {level : Nat} {last : String} {inner rows : List String} : last ∈ ["\x7d", "\x7d;"] →
    Bracketed (level + 1) inner → Bracketed level rows →
      Bracketed level ((margin level ++ "\x7b") :: inner ++ (margin level ++ last) :: rows)

theorem Bracketed.append (h : Bracketed level rows) (h' : Bracketed level rows') :
    Bracketed level (rows ++ rows') := by
  induction h with
  | nil => exact h'
  | plain hrow _ ih => exact .plain hrow (ih h')
  | block hlast hinner _ _ ih =>
    rw [List.append_assoc, List.cons_append]
    exact .block hlast hinner (ih h')

theorem filter_shift (k : Nat) (row : String) :
    (shift k row).toList.filter (!isBlank ·) = row.toList.filter (!isBlank ·) := by
  by_cases h : row = ""
  · rw [h]
    rfl
  · have hmargin : (List.replicate (4 * k) ' ').filter (!isBlank ·) = [] := by
      rw [List.filter_eq_nil_iff]
      intro c hc
      rw [List.eq_of_mem_replicate hc]
      decide
    rw [shift_of_ne h, margin_eq, String.toList_append, String.toList_ofList, List.filter_append,
      hmargin, List.nil_append]

theorem isBrace_shift : IsBrace (shift k row) ↔ IsBrace row := by
  rw [IsBrace, filter_shift, IsBrace]

theorem Bracketed.shift (h : Bracketed j rows) (k : Nat) :
    Bracketed (j + k) (rows.map (shift k)) := by
  induction h with
  | nil level => exact .nil _
  | plain hrow _ ih => exact .plain (mt isBrace_shift.mp hrow) ih
  | @block level last inner rows hlast _ _ ihinner ihrows =>
    have hbrace : ∀ brace ≠ "", Code.shift k (margin level ++ brace) =
        margin (level + k) ++ brace := by
      intro brace hbrace
      have hne : margin level ++ brace ≠ "" := by simp [hbrace]
      rw [shift_of_ne hne, ← String.append_assoc, margin_append]
    have hne : last ≠ "" := by
      rintro rfl
      simp at hlast
    rw [List.map_append, List.map_cons, List.map_cons, hbrace "\x7b" (by decide), hbrace last hne]
    -- what is one level deeper stays one level deeper
    rw [Nat.add_right_comm] at ihinner
    exact .block hlast ihinner ihrows

/-- A row with more ink than a brace is none. -/
theorem not_isBrace_of_ink (h : 3 ≤ ink row) : ¬ IsBrace row := by
  intro hbrace
  rw [ink, List.countP_eq_length_filter] at h
  have hlen : ∀ cs ∈ ["\x7b".toList, "\x7d".toList, "\x7d;".toList], cs.length ≤ 2 := by decide
  have := hlen _ hbrace
  omega

/-! ## Rows of code -/

/-- A row that is told apart from its neighbours, from an empty row, and from a brace. -/
structure Tidy (row : String) : Prop where
  oneLine : OneLine row
  ink : 3 ≤ ink row

/-- A row that stays as it is when the text it stands in is read line by line and rows without text
are left empty. -/
structure Stable (row : String) : Prop where
  oneLine : OneLine row
  empty : ink row = 0 → row = ""

theorem Tidy.append (h : Tidy row) {tail : String} (htail : OneLine tail) :
    Tidy (row ++ tail) where
  oneLine := oneLine_append.mpr ⟨h.oneLine, htail⟩
  ink := by
    rw [ink_append]
    exact Nat.le_add_right_of_le h.ink

theorem Tidy.ne (h : Tidy row) : row ≠ "" := by
  rintro rfl
  exact absurd h.ink (by decide)

theorem Tidy.stable (h : Tidy row) : Stable row where
  oneLine := h.oneLine
  empty hnone := absurd h.ink (by rw [hnone]; decide)

/-- A shift adds blanks in front, and to rows with text only. -/
theorem Stable.shift (h : Stable row) (k : Nat) : Stable (shift k row) := by
  by_cases hrow : row = ""
  · rw [hrow, shift_empty]
    exact ⟨by decide, fun _ ↦ rfl⟩
  · rw [shift_of_ne hrow]
    constructor
    · have hmargin : OneLine (margin k) := by
        rw [margin_eq, OneLine, String.toList_ofList]
        simp
      exact oneLine_append.mpr ⟨hmargin, h.oneLine⟩
    · intro hnone
      rw [ink_append, Nat.add_eq_zero_iff] at hnone
      exact absurd (h.empty hnone.2) hrow

/-- The commands write the given rows, shifted by the level they start on, and they end on this
level. -/
structure Lays (commands : List Command) (rows : List String) : Prop where
  level : Level commands
  written : ∀ k, written k commands = unlines (rows.map (shift k))
  bracketed : Bracketed 0 rows
  stable : ∀ row ∈ rows, Stable row

namespace Lays

variable {cs ds : List Command} {text name : String}

theorem nil : Lays [] [] where
  level _ := rfl
  written _ := rfl
  bracketed := .nil 0
  stable := List.forall_mem_nil _

theorem append (hcs : Lays cs rows) (hds : Lays ds rows') : Lays (cs ++ ds) (rows ++ rows') where
  level := hcs.level.append hds.level
  written k := by
    rw [written_append, hcs.level, hcs.written, hds.written, List.map_append, unlines_append]
  bracketed := hcs.bracketed.append hds.bracketed
  stable := List.forall_mem_append.mpr ⟨hcs.stable, hds.stable⟩

theorem exists_flatMap {α : Type} {f : α → List Command} {xs : List α}
    (h : ∀ x ∈ xs, ∃ rows, Lays (f x) rows) : ∃ rows, Lays (xs.flatMap f) rows := by
  induction xs with
  | nil => exact ⟨[], nil⟩
  | cons x xs ih =>
    rw [List.forall_mem_cons] at h
    obtain ⟨rows, hrows⟩ := h.1
    obtain ⟨rows', hrows'⟩ := ih h.2
    exact ⟨rows ++ rows', hrows.append hrows'⟩

private theorem unlines_shift (h : Tidy row) (k : Nat) :
    unlines ([row].map (shift k)) = margin k ++ row ++ "\n" := by
  rw [List.map_singleton, unlines_cons, unlines_nil, shift_of_ne h.ne, String.append_empty]

theorem line (h : Tidy text) : Lays [.line text] [text] where
  level _ := rfl
  written k := by
    rw [unlines_shift h, written_line]
    simp [Code.written, String.append_assoc]
  bracketed := .plain (not_isBrace_of_ink h.ink) (.nil 0)
  stable := List.forall_mem_singleton.mpr h.stable

theorem statement (h : Tidy (text ++ ";")) : Lays [.statement text] [text ++ ";"] where
  level _ := rfl
  written k := by
    rw [unlines_shift h, written_statement]
    simp [Code.written, String.append_assoc]
  bracketed := .plain (not_isBrace_of_ink h.ink) (.nil 0)
  stable := List.forall_mem_singleton.mpr h.stable

theorem blankLine : Lays [.blankLine] [""] where
  level _ := rfl
  written _ := rfl
  bracketed := .plain (by decide) (.nil 0)
  stable := List.forall_mem_singleton.mpr ⟨by decide, fun _ ↦ rfl⟩

private theorem bracketed_braces {last : String} (h : Bracketed 0 rows)
    (hlast : last ∈ ["\x7d", "\x7d;"]) :
    Bracketed 0 ("\x7b" :: rows.map (shift 1) ++ [last]) := by
  have hblock := Bracketed.block hlast (h.shift 1) (.nil 0)
  rwa [margin_eq, Nat.mul_zero, List.replicate_zero, String.ofList_nil, String.empty_append,
    String.empty_append] at hblock

private theorem stable_braces {last : String} (h : ∀ row ∈ rows, Stable row)
    (hlast : last ∈ ["\x7d", "\x7d;"]) :
    ∀ row ∈ "\x7b" :: rows.map (shift 1) ++ [last], Stable row := by
  have hbrace : ∀ brace ∈ ["\x7b", "\x7d", "\x7d;"], Stable brace := by
    intro brace hbrace
    simp only [List.mem_cons, List.not_mem_nil, or_false] at hbrace
    rcases hbrace with rfl | rfl | rfl <;> exact ⟨by decide, by decide⟩
  rw [List.forall_mem_append, List.forall_mem_cons, List.forall_mem_singleton]
  refine ⟨⟨hbrace _ List.mem_cons_self, ?_⟩, hbrace _ (List.mem_cons_of_mem _ hlast)⟩
  intro row hrow
  obtain ⟨row, hmem, rfl⟩ := List.mem_map.mp hrow
  exact (h row hmem).shift 1

private theorem unlines_braces {last : String} (hlast : last ∈ ["\x7d", "\x7d;"]) (k : Nat) :
    unlines (("\x7b" :: rows.map (shift 1) ++ [last]).map (shift k)) =
      margin k ++ "\x7b\n" ++ unlines (rows.map (shift (k + 1))) ++ margin k ++ last ++ "\n" := by
  have hdeeper : (rows.map (shift 1)).map (shift k) = rows.map (shift (k + 1)) := by
    rw [List.map_map, Nat.add_comm]
    exact List.map_congr_left fun row _ ↦ shift_shift 1 k row
  have hne : last ≠ "" := by
    rintro rfl
    simp at hlast
  rw [List.map_append, List.map_cons, hdeeper, List.map_singleton, shift_of_ne hne,
    shift_of_ne (by decide), unlines_append, unlines_cons, unlines_cons, unlines_nil]
  simp only [String.append_assoc, String.append_empty]
  rfl

theorem block (h : Lays cs rows) :
    Lays ([.openBlock] ++ cs ++ [.closeBlock]) ("\x7b" :: rows.map (shift 1) ++ ["\x7d"]) where
  level := h.level.wrapped (fun _ ↦ rfl) fun _ ↦ rfl
  written k := by
    have hopen : levelAfter k [.openBlock] = k + 1 := rfl
    rw [unlines_braces (by simp), written_append, written_append, levelAfter_append, hopen, h.level,
      h.written]
    simp [Code.written, Block.run, Block.addLine, Block.deeper, Block.shallower,
      String.append_assoc]
  bracketed := bracketed_braces h.bracketed (by simp)
  stable := stable_braces h.stable (by simp)

theorem struct (h : Lays cs rows) (hname : OneLine name) :
    Lays ([.openStruct name] ++ cs ++ [.closeStruct])
      (("struct " ++ name) :: ("\x7b" :: rows.map (shift 1) ++ ["\x7d;"])) := by
  have hhead : Tidy ("struct " ++ name) := Tidy.append ⟨by decide, by decide⟩ hname
  constructor
  · exact h.level.wrapped (fun _ ↦ rfl) fun _ ↦ rfl
  · intro k
    rw [List.map_cons, unlines_cons, shift_of_ne hhead.ne, unlines_braces (by simp),
      written_struct h.level, h.written]
    simp only [String.append_assoc]
    rfl
  · exact .plain (not_isBrace_of_ink hhead.ink) (bracketed_braces h.bracketed (by simp))
  · exact List.forall_mem_cons.mpr ⟨hhead.stable, stable_braces h.stable (by simp)⟩

/-- The rows can be read off what is written at the margin. -/
theorem rows_written (h : Lays cs rows) : Text.rows (Code.written 0 cs) = rows := by
  have hmargin : rows.map (shift 0) = rows := by
    rw [List.map_congr_left fun row _ ↦ shift_zero row, List.map_id']
  rw [h.written, hmargin]
  exact rows_unlines fun row hrow ↦ (h.stable row hrow).oneLine

/-- Stable rows are added one by one. -/
private theorem foldl_stable (h : ∀ row ∈ rows, Stable row) (b : Block) :
    (rows.map String.toList).foldl (fun b line ↦ if isBlankLine line then b.addBlankLine
      else b.addLine (String.ofList line)) b =
        { text := b.text ++ unlines (rows.map (shift b.indent)), indent := b.indent } := by
  induction rows generalizing b with
  | nil => simp
  | cons row rows ih =>
    rw [List.forall_mem_cons] at h
    rw [List.map_cons, List.foldl_cons, ih h.2, List.map_cons, unlines_cons]
    by_cases hrow : ink row = 0
    · -- a stable row without ink is the empty row, and no shift changes that
      rw [if_pos (isBlankLine_iff_ink.mpr hrow), h.1.empty hrow, shift_empty]
      simp [Block.addBlankLine, String.append_assoc]
    · have hne : row ≠ "" := by
        rintro rfl
        exact hrow rfl
      rw [if_neg (mt isBlankLine_iff_ink.mp hrow), shift_of_ne hne]
      simp [Block.addLine, String.append_assoc]

/-- **Commands write what code in lines does**: adding the lines that they write at the margin has the
same effect on a block as running them. -/
theorem run_code (h : Lays cs rows) (b : Block) :
    b.run (.code (Code.written 0 cs)) = b.runAll cs := by
  have hlines : Text.lines (Code.written 0 cs).toList = rows.map String.toList := by
    rw [← h.rows_written, Text.rows, List.map_map]
    simp
  rw [Block.run, hlines, Block.runAll_eq, h.level, h.written]
  exact foldl_stable h.stable b

end Lays

/-! ## Declarations -/

/-- The rows that the command writes are tidy, empty rows and braces apart. -/
def Command.Tidy : Command → Prop
  | .line text => Code.Tidy text
  | .statement text => Code.Tidy (text ++ ";")
  | .code _ => False
  | .openStruct name => OneLine name
  | .blankLine | .openBlock | .closeBlock | .closeStruct => True

/-- **A declaration is written in rows** that are the same at every level but for the margin. -/
theorem Declaration.exists_lays (d : Declaration) (h : ∀ c ∈ d.commands, c.Tidy) :
    ∃ rows, Lays d.commands rows := by
  induction d using memberwise with
  | struct name members ih =>
    rw [commands_struct, List.forall_mem_append, List.forall_mem_append,
      List.forall_mem_singleton] at h
    obtain ⟨⟨hname, hmembers⟩, -⟩ := h
    have hlays : ∀ d ∈ members, ∃ rows, Lays d.commands rows := fun d hd ↦
      ih d hd fun c hc ↦ hmembers c (List.mem_flatMap.mpr ⟨d, hd, hc⟩)
    obtain ⟨rows, hrows⟩ := Lays.exists_flatMap hlays
    rw [commands_struct]
    exact ⟨_, hrows.struct hname⟩
  | plain d hplain =>
    cases d with
    | struct name members => exact absurd rfl (hplain name members)
    | typeAlias name type => exact ⟨_, .statement (h _ (List.mem_singleton_self _))⟩
    | constant subject axes =>
      cases axes <;> exact ⟨_, .statement (h _ (List.mem_singleton_self _))⟩
    | field type name => exact ⟨_, .statement (h _ (List.mem_singleton_self _))⟩
    | mark text => exact ⟨_, .line (h _ (List.mem_singleton_self _))⟩
    | blankLine => exact ⟨_, .blankLine⟩
    | function name formals body =>
      rw [commands] at h ⊢
      simp only [List.forall_mem_append, List.forall_mem_cons, List.forall_mem_map] at h
      obtain ⟨⟨⟨hhead, -⟩, hbody⟩, -⟩ := h
      have hstatements : ∀ s ∈ body, ∃ rows, Lays [s.command] rows := by
        intro s hs
        have hs := hbody s hs
        cases s <;> exact ⟨_, .statement hs⟩
      obtain ⟨rows, hrows⟩ := Lays.exists_flatMap hstatements
      rw [← List.map_eq_flatMap] at hrows
      exact ⟨_, (Lays.line hhead).append hrows.block⟩

end KernelCall.Code
