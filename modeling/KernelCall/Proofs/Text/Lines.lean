import KernelCall.Proofs.Text.Token
import KernelCall.Text.Lines

/-!
# Lines of a text

A text whose rows each end in a newline has these rows as its lines, provided that no row has the
end of a line inside. Besides the newline that is the carriage return, which is lost in front of one.
-/

namespace KernelCall.Text

variable {s t : String}

/-! ## Text on one line -/

/-- The text does not run over the end of a line. -/
def OneLine (s : String) : Prop := '\n' ∉ s.toList ∧ '\r' ∉ s.toList

instance : DecidablePred OneLine := fun s ↦
  inferInstanceAs (Decidable ('\n' ∉ s.toList ∧ '\r' ∉ s.toList))

theorem oneLine_append : OneLine (s ++ t) ↔ OneLine s ∧ OneLine t := by
  simp only [OneLine, String.toList_append, List.mem_append, not_or]
  exact and_and_and_comm

theorem oneLine_toString (n : Nat) : OneLine (toString n) := by
  have hdigit : ∀ c : Char, c.isDigit = false → c ∉ (toString n).toList := by
    intro c hc hmem
    rw [isDigit_of_mem_toString hmem] at hc
    cases hc
  exact ⟨hdigit '\n' rfl, hdigit '\r' rfl⟩

/-- What texts are joined to has no other characters than they and the separator. -/
theorem mem_of_mem_intercalate {sep : String} {ss : List String} {c : Char}
    (hc : c ∈ (sep.intercalate ss).toList) : c ∈ sep.toList ∨ ∃ s ∈ ss, c ∈ s.toList := by
  rw [String.toList_intercalate] at hc
  rcases ss with _ | ⟨s, ss⟩
  · cases hc
  · rw [List.map_cons, intercalate_cons, List.mem_append, List.mem_flatMap] at hc
    rcases hc with hc | ⟨cs, hcs, hc⟩
    · exact Or.inr ⟨s, List.mem_cons_self, hc⟩
    · obtain ⟨t, ht, rfl⟩ := List.mem_map.mp hcs
      refine (List.mem_append.mp hc).imp_right fun hc ↦ ?_
      exact ⟨t, List.mem_cons_of_mem s ht, hc⟩

theorem oneLine_intercalate {sep : String} {ss : List String} (hsep : OneLine sep)
    (h : ∀ s ∈ ss, OneLine s) : OneLine (sep.intercalate ss) := by
  constructor <;> intro hc
  · exact (mem_of_mem_intercalate hc).elim hsep.1 fun ⟨s, hs, hc⟩ ↦ (h s hs).1 hc
  · exact (mem_of_mem_intercalate hc).elim hsep.2 fun ⟨s, hs, hc⟩ ↦ (h s hs).2 hc

/-! ## Ink -/

/-- The number of characters that are not blank. -/
def ink (s : String) : Nat := s.toList.countP (!isBlank ·)

theorem ink_append : ink (s ++ t) = ink s + ink t := by
  rw [ink, String.toList_append, List.countP_append]
  rfl

theorem isBlankLine_iff_ink : isBlankLine s.toList ↔ ink s = 0 := by
  rw [isBlankLine, List.all_eq_true, ink, List.countP_eq_zero]
  simp

/-- A name or the like: some text on one line. -/
structure Word (s : String) : Prop where
  oneLine : OneLine s
  ink : 0 < ink s

instance : DecidablePred Word := fun s ↦
  decidable_of_iff (OneLine s ∧ 0 < ink s) ⟨fun h ↦ ⟨h.1, h.2⟩, fun h ↦ ⟨h.1, h.2⟩⟩

/-- What stands around a word on its line belongs to a word too. -/
theorem Word.wrap (h : Word s) {left right : String} (hleft : OneLine left)
    (hright : OneLine right) : Word (left ++ s ++ right) := by
  constructor
  · rw [oneLine_append, oneLine_append]
    exact ⟨⟨hleft, h.oneLine⟩, hright⟩
  · have hink := h.ink
    rw [ink_append, ink_append]
    omega

/-! ## Rows -/

/-- The lines of a text, as texts. -/
def rows (text : String) : List String := (lines text.toList).map String.ofList

/-- The text with the given lines. -/
def unlines (rows : List String) : String := String.join (rows.map (· ++ "\n"))

@[simp] theorem unlines_nil : unlines [] = "" := rfl

theorem unlines_cons (row : String) (rows : List String) :
    unlines (row :: rows) = row ++ "\n" ++ unlines rows := by
  rw [unlines, List.map_cons, String.join_cons]
  rfl

theorem unlines_append (rows rows' : List String) :
    unlines (rows ++ rows') = unlines rows ++ unlines rows' := by
  induction rows with
  | nil => simp
  | cons row rows ih => simp only [List.cons_append, unlines_cons, ih, String.append_assoc]

/-- A line goes on up to the next newline. -/
theorem linesAfter_append {line row : List Char} (h : '\n' ∉ row) (cs : List Char) :
    linesAfter line (row ++ '\n' :: cs) = dropReturn (line.reverse ++ row) :: lines cs := by
  induction row generalizing line with
  | nil => rw [List.nil_append, List.append_nil, linesAfter, lines]
  | cons c row ih =>
    rw [List.mem_cons, not_or] at h
    rw [List.cons_append, linesAfter, ih h.2, List.reverse_cons, List.append_assoc]
    · rfl
    · exact fun hc ↦ h.1 hc.symm

theorem dropReturn_of_not_mem {line : List Char} (h : '\r' ∉ line) : dropReturn line = line :=
  if_neg fun hlast ↦ h (List.mem_of_getLast? hlast)

/-- **The rows of a text are its lines.** -/
theorem rows_unlines {ss : List String} (h : ∀ s ∈ ss, OneLine s) : rows (unlines ss) = ss := by
  induction ss with
  | nil => rfl
  | cons s ss ih =>
    rw [List.forall_mem_cons] at h
    have hfirst : lines (s.toList ++ '\n' :: (unlines ss).toList) =
        s.toList :: lines (unlines ss).toList := by
      rw [lines, linesAfter_append h.1.1]
      exact congrArg (· :: _) (dropReturn_of_not_mem h.1.2)
    have htext : (unlines (s :: ss)).toList = s.toList ++ '\n' :: (unlines ss).toList := by
      simp [unlines_cons]
    rw [rows, htext, hfirst, List.map_cons, String.ofList_toList]
    exact congrArg (s :: ·) (ih h.2)

end KernelCall.Text
