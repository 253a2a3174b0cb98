import KernelCall.Proofs.Text.Bytes
import KernelCall.Report.Span

/-!
# The word that a span marks

The search for a word goes on behind an occurrence that turns out to be part of a longer word, and so
does not look at the places inside it. No word is missed there. What stands at such a place has a
character of the occurrence in front of it, and the characters of a path continue a path.

Places are counted in bytes. A word of characters is a word of bytes and the other way round, so the
range that is marked begins and ends between characters.
-/

namespace KernelCall

namespace Span

/-! ## Words between characters -/

/-- The word `w` stands in a text between `front` and `back`, the text itself being behind
`before?`. -/
structure Between (before? : Option Char) (w front back text : List Char) : Prop where
  eq : text = front ++ (w ++ back)
  left : isBoundary (front.getLast?.or before?)
  right : isBoundary back.head?

variable {before? : Option Char} {w front back text cs : List Char} {c : Char} {skip start : Nat}

private theorem getLast?_cons_or (c : Char) (cs : List Char) (before? : Option Char) :
    (c :: cs).getLast?.or before? = cs.getLast?.or (some c) := by
  rw [List.getLast?_cons]
  cases cs.getLast? <;> rfl

theorem between_cons_iff :
    Between before? w (c :: front) back (c :: cs) ↔ Between (some c) w front back cs := by
  have hlast := getLast?_cons_or c front before?
  constructor
  · rintro ⟨heq, hleft, hright⟩
    exact ⟨(List.cons.inj heq).2, hlast ▸ hleft, hright⟩
  · rintro ⟨rfl, hleft, hright⟩
    exact ⟨rfl, hlast ▸ hleft, hright⟩

theorem Between.cases (h : Between before? w front back (c :: cs)) :
    (front = [] ∧ w ++ back = c :: cs ∧ isBoundary before? ∧ isBoundary back.head?) ∨
      ∃ front', front = c :: front' ∧ Between (some c) w front' back cs := by
  cases front with
  | nil => exact Or.inl ⟨rfl, h.eq.symm, h.left, h.right⟩
  | cons d front =>
    obtain ⟨rfl, -⟩ := List.cons.inj h.eq
    exact Or.inr ⟨front, rfl, between_cons_iff.mp h⟩

theorem byteLength_cons (c : Char) (cs : List Char) :
    byteLength (c :: cs) = c.utf8Size + byteLength cs := by
  rw [byteLength, String.ofList_cons, String.utf8ByteSize_append, String.utf8ByteSize_singleton,
    byteLength]

theorem between_of_word? {place : Nat} (h : word? w skip before? start text = some place) :
    ∃ front back, Between before? w front back text ∧ place = start + byteLength front := by
  have hrest : ∀ {c : Char} {cs front back : List Char} {before? : Option Char} {start : Nat},
      Between (some c) w front back cs → place = start + c.utf8Size + byteLength front →
        ∃ front back, Between before? w front back (c :: cs) ∧
          place = start + byteLength front := by
    intro c cs front back before? start hword hplace
    refine ⟨c :: front, back, between_cons_iff.mpr hword, ?_⟩
    rw [hplace, byteLength_cons, Nat.add_assoc]
  fun_induction word? w skip before? start text with
  | case1 => cases h
  | case2 before? start c cs skip ih =>
    obtain ⟨front, back, hword, hplace⟩ := ih h
    exact hrest hword hplace
  | case3 before? start c cs _ ih =>
    obtain ⟨front, back, hword, hplace⟩ := ih h
    exact hrest hword hplace
  | case4 before? start c cs back hback hends =>
    cases h
    rw [Bool.and_eq_true] at hends
    exact ⟨[], back, ⟨(List.isPrefixOf?_eq_some_iff_append_eq.mp hback).symm, hends.1, hends.2⟩, rfl⟩
  | case5 before? start c cs _ _ _ ih =>
    obtain ⟨front, back, hword, hplace⟩ := ih h
    exact hrest hword hplace

/-- Inside an occurrence that is passed over no word begins, for it would stand behind a character
of the occurrence. -/
theorem Between.length_le (hw : ∀ c ∈ w, isPathChar c) {rest : List Char}
    (hrest : w ++ rest = c :: cs) (h : Between (some c) w front back cs) :
    w.length - 1 ≤ front.length := by
  by_contra hlt
  have hfront : c :: front <+: c :: cs := ⟨w ++ back, by rw [h.eq, List.cons_append]⟩
  have hinside : c :: front <+: w := by
    refine List.prefix_of_prefix_length_le hfront ⟨rest, hrest⟩ ?_
    rw [List.length_cons]
    omega
  have hlast : isPathChar ((c :: front).getLast (List.cons_ne_nil c front)) :=
    hw _ (hinside.subset (List.getLast_mem _))
  have hleft := h.left
  rw [← getLast?_cons_or c front none, List.getLast?_eq_some_getLast (List.cons_ne_nil c front),
    Option.or_none, isBoundary, Option.any_some, hlast] at hleft
  cases hleft

/-- **No word is missed.** The search, even if it skips characters where no word begins, finds any
word or one in front of it. -/
theorem Between.exists_word?_le (hne : w ≠ []) (hw : ∀ c ∈ w, isPathChar c)
    (hskip : ∀ front back, Between before? w front back text → skip ≤ front.length)
    (h : Between before? w front back text) :
    ∃ place, word? w skip before? start text = some place ∧ place ≤ start + byteLength front := by
  fun_induction word? w skip before? start text generalizing front with
  | case1 =>
    have hnil : front = [] ∧ w = [] ∧ back = [] := by simpa using h.eq
    exact absurd hnil.2.1 hne
  | case2 before? start c cs skip ih =>
    rcases h.cases with ⟨rfl, -⟩ | ⟨front, rfl, hword⟩
    · exact absurd (hskip [] back h) (Nat.not_succ_le_zero skip)
    · have hskip' : ∀ front back, Between (some c) w front back cs → skip ≤ front.length :=
        fun front back hword ↦
          Nat.le_of_succ_le_succ (hskip (c :: front) back (between_cons_iff.mpr hword))
      rw [byteLength_cons, ← Nat.add_assoc]
      exact ih hskip' hword
  | case3 before? start c cs hnone ih =>
    rcases h.cases with ⟨rfl, hback, -⟩ | ⟨front, rfl, hword⟩
    · rw [List.isPrefixOf?_eq_some_iff_append_eq.mpr hback] at hnone
      cases hnone
    · rw [byteLength_cons, ← Nat.add_assoc]
      exact ih (fun _ _ _ ↦ Nat.zero_le _) hword
  | case4 before? start c cs rest hrest hends => exact ⟨start, rfl, Nat.le_add_right _ _⟩
  | case5 before? start c cs rest hrest hends ih =>
    have hrest := List.isPrefixOf?_eq_some_iff_append_eq.mp hrest
    rcases h.cases with ⟨rfl, hback, hleft, hright⟩ | ⟨front, rfl, hword⟩
    · rw [← List.append_cancel_left (hback.trans hrest.symm), hleft, hright] at hends
      exact absurd rfl hends
    · rw [byteLength_cons, ← Nat.add_assoc]
      exact ih (fun _ _ hinside ↦ hinside.length_le hw hrest) hword

/-! ## What is marked -/

theorem byteLength_append (cs ds : List Char) :
    byteLength (cs ++ ds) = byteLength cs + byteLength ds := by
  rw [byteLength, String.ofList_append, String.utf8ByteSize_append, byteLength, byteLength]

@[simp] theorem byteLength_toList (s : String) : byteLength s.toList = s.utf8ByteSize := by
  rw [byteLength, String.ofList_toList]

/-- A path that is found marks itself, and else the whole text is marked. -/
theorem ofPath_cases (w text : List Char) : ofPath w text = whole text ∨
    ∃ front back, Between none w front back text ∧
      ofPath w text = ⟨byteLength front, byteLength front + byteLength w⟩ := by
  rw [ofPath]
  split
  · exact Or.inl rfl
  · cases hword : word? w 0 none 0 text with
    | none => exact Or.inl rfl
    | some place =>
      obtain ⟨front, back, hbetween, hplace⟩ := between_of_word? hword
      rw [Nat.zero_add] at hplace
      exact Or.inr ⟨front, back, hbetween, by rw [hplace]⟩

theorem ofPath_eq_whole (h : w = [] ∨ ∀ front back, ¬ Between none w front back text) :
    ofPath w text = whole text := by
  rcases h with rfl | h
  · rfl
  · exact (ofPath_cases w text).resolve_right fun ⟨front, back, hword, _⟩ ↦ h front back hword

/-- **A path that is found marks its first occurrence.** -/
theorem Between.exists_ofPath_eq (hne : w ≠ []) (hw : ∀ c ∈ w, isPathChar c)
    (h : Between none w front back text) : ∃ first rest, Between none w first rest text ∧
      ofPath w text = ⟨byteLength first, byteLength first + byteLength w⟩ ∧
        ∀ front back, Between none w front back text → byteLength first ≤ byteLength front := by
  have hfound : ∀ {front back}, Between none w front back text →
      ∃ place, word? w 0 none 0 text = some place ∧ place ≤ 0 + byteLength front := fun hword ↦
    hword.exists_word?_le hne hw fun _ _ _ ↦ Nat.zero_le _
  obtain ⟨place, hplace, -⟩ := hfound h
  obtain ⟨first, rest, hfirst, rfl⟩ := between_of_word? hplace
  rw [Nat.zero_add] at hplace
  refine ⟨first, rest, hfirst, ?_, fun front back hword ↦ ?_⟩
  · rw [ofPath, if_neg (by rwa [List.isEmpty_iff]), hplace]
  · obtain ⟨place', hplace', hle⟩ := hfound hword
    rw [hplace, Option.some.injEq] at hplace'
    omega

/-! ## Words between bytes -/

/-- Whether a word may end or begin beside a byte, or at the end of the text. Only bytes of ASCII
continue a path. -/
def isByteBoundary (b? : Option UInt8) : Bool :=
  !b?.any fun b ↦ isPathChar (Char.ofUInt8 b)

/-- At a place of a text stand the bytes of a path, and the bytes beside them do not continue it. -/
structure WordAt (path text : String) (place : Nat) : Prop where
  found : Text.bytes path <+: (Text.bytes text).drop place
  left : isByteBoundary ((Text.bytes text).take place).getLast?
  right : isByteBoundary ((Text.bytes text).drop (place + path.utf8ByteSize)).head?

instance (path text : String) (place : Nat) : Decidable (WordAt path text place) :=
  decidable_of_iff
    (Text.bytes path <+: (Text.bytes text).drop place ∧
      isByteBoundary ((Text.bytes text).take place).getLast? ∧
      isByteBoundary ((Text.bytes text).drop (place + path.utf8ByteSize)).head?)
    ⟨fun h ↦ ⟨h.1, h.2.1, h.2.2⟩, fun h ↦ ⟨h.found, h.left, h.right⟩⟩

theorem toNat_lt_of_isPathChar (c : Char) (h : isPathChar c) : c.toNat < 128 := by
  delta isPathChar Char.isAlphanum Char.isAlpha Char.isUpper Char.isLower Char.isDigit at h
  simp only [Bool.or_eq_true, Bool.and_eq_true, decide_eq_true_eq, beq_iff_eq, ge_iff_le,
    UInt32.le_iff_toNat_le] at h
  rcases h with (((⟨-, h⟩ | ⟨-, h⟩) | ⟨-, h⟩) | rfl) | rfl
  · exact Nat.lt_of_le_of_lt h (by decide)
  · exact Nat.lt_of_le_of_lt h (by decide)
  · exact Nat.lt_of_le_of_lt h (by decide)
  · decide
  · decide

private theorem wordAt_append_iff {front path back : String} :
    WordAt path (front ++ (path ++ back)) front.utf8ByteSize ↔
      isBoundary front.toList.getLast? ∧ isBoundary back.toList.head? := by
  have htake : (Text.bytes (front ++ (path ++ back))).take front.utf8ByteSize =
      Text.bytes front := by
    rw [Text.bytes_append, List.take_left' (Text.length_bytes front)]
  have hdrop : (Text.bytes (front ++ (path ++ back))).drop front.utf8ByteSize =
      Text.bytes path ++ Text.bytes back := by
    rw [Text.bytes_append, List.drop_left' (Text.length_bytes front), Text.bytes_append]
  have hrest : (Text.bytes (front ++ (path ++ back))).drop
      (front.utf8ByteSize + path.utf8ByteSize) = Text.bytes back := by
    rw [← List.drop_drop, hdrop, List.drop_left' (Text.length_bytes path)]
  have hleft : isByteBoundary (Text.bytes front).getLast? = isBoundary front.toList.getLast? := by
    rw [isByteBoundary, Text.any_getLast?_bytes toNat_lt_of_isPathChar, isBoundary]
  have hright : isByteBoundary (Text.bytes back).head? = isBoundary back.toList.head? := by
    rw [isByteBoundary, Text.any_head?_bytes toNat_lt_of_isPathChar, isBoundary]
  constructor
  · rintro ⟨-, h, h'⟩
    rw [htake, hleft] at h
    rw [hrest, hright] at h'
    exact ⟨h, h'⟩
  · rintro ⟨h, h'⟩
    refine ⟨⟨Text.bytes back, hdrop.symm⟩, ?_, ?_⟩
    · rwa [htake, hleft]
    · rwa [hrest, hright]

theorem Between.text_eq {path text : String}
    (h : Between before? path.toList front back text.toList) :
    text = String.ofList front ++ (path ++ String.ofList back) := by
  rw [← String.toList_inj, h.eq]
  simp

/-- **Words of bytes are words of characters.** -/
theorem wordAt_iff {path text : String} {place : Nat} (hne : path ≠ "") :
    WordAt path text place ↔ ∃ front back,
      Between none path.toList front back text.toList ∧ byteLength front = place := by
  constructor
  · intro h
    obtain ⟨front, back, rfl, rfl⟩ := Text.exists_append_of_bytes_isPrefix_drop hne h.found
    obtain ⟨hleft, hright⟩ := wordAt_append_iff.mp h
    refine ⟨front.toList, back.toList, ⟨by simp, ?_, hright⟩, byteLength_toList front⟩
    rwa [Option.or_none]
  · rintro ⟨front, back, hword, rfl⟩
    have hleft := hword.left
    rw [Option.or_none] at hleft
    rw [hword.text_eq, byteLength, wordAt_append_iff, String.toList_ofList, String.toList_ofList]
    exact ⟨hleft, hword.right⟩

/-! ## Ranges of a text -/

/-- The range lies in the text, and begins and ends between characters. -/
structure Within (s : Span) (text : String) : Prop where
  ordered : s.start ≤ s.stop
  start : (⟨s.start⟩ : String.Pos.Raw).IsValid text
  stop : (⟨s.stop⟩ : String.Pos.Raw).IsValid text

/-- The range is that of the leftmost word that is the path. If there is none, and for the empty
path, it is the whole text. -/
structure Marks (s : Span) (path text : String) : Prop where
  word : path ≠ "" → (∃ place, WordAt path text place) →
    ∃ place, WordAt path text place ∧ (∀ place' < place, ¬ WordAt path text place') ∧
      s = ⟨place, place + path.utf8ByteSize⟩
  whole : (path = "" ∨ ∀ place, ¬ WordAt path text place) → s = ⟨0, text.utf8ByteSize⟩

theorem within_whole (text : String) : (whole text.toList).Within text where
  ordered := Nat.zero_le _
  start := String.Pos.Raw.isValid_zero
  stop := by
    rw [whole, byteLength_toList]
    exact String.Pos.Raw.isValid_rawEndPos

theorem within_of_eq {front mid back text : String} (h : text = front ++ (mid ++ back)) :
    Within ⟨front.utf8ByteSize, front.utf8ByteSize + mid.utf8ByteSize⟩ text where
  ordered := Nat.le_add_right _ _
  start := String.Pos.Raw.isValid_iff_exists_append.mpr ⟨front, mid ++ back, h, rfl⟩
  stop := by
    refine String.Pos.Raw.isValid_iff_exists_append.mpr ⟨front ++ mid, back, ?_, ?_⟩
    · rw [h, String.append_assoc]
    · rw [String.rawEndPos, String.utf8ByteSize_append]

end Span

/-- **An error marks the leftmost occurrence of its path as a word.** Whatever the path and the
text, what is marked lies in the text and begins and ends between characters. If the path consists
of letters, digits, underscores and dots, it is the leftmost of all places at which the bytes of the
path stand with neither of these before them nor behind; overlapping occurrences count. If there is
no such place, or if the path is empty, the whole text is marked. -/
theorem BindError.marks_span (e : BindError) (text : String) :
    (e.span text).Within text ∧
      ((∀ c ∈ e.path.toList, isPathChar c) → (e.span text).Marks e.path text) := by
  refine ⟨?_, fun hpath ↦ ⟨?_, ?_⟩⟩
  · rw [span]
    rcases Span.ofPath_cases e.path.toList text.toList with hwhole | ⟨front, back, hword, hspan⟩
    · rw [hwhole]
      exact Span.within_whole text
    · rw [hspan, Span.byteLength_toList]
      exact Span.within_of_eq hword.text_eq
  · rintro hne ⟨place, hplace⟩
    obtain ⟨front, back, hword, -⟩ := (Span.wordAt_iff hne).mp hplace
    obtain ⟨first, rest, hfirst, hspan, hleast⟩ :=
      hword.exists_ofPath_eq (mt String.toList_eq_nil_iff.mp hne) hpath
    refine ⟨Span.byteLength first, (Span.wordAt_iff hne).mpr ⟨first, rest, hfirst, rfl⟩, ?_, ?_⟩
    · intro place' hlt hplace'
      obtain ⟨front', back', hword', rfl⟩ := (Span.wordAt_iff hne).mp hplace'
      exact Nat.not_le_of_lt hlt (hleast front' back' hword')
    · rw [span, hspan, Span.byteLength_toList]
  · intro hnone
    have hwhole : e.path.toList = [] ∨
        ∀ front back, ¬ Span.Between none e.path.toList front back text.toList := by
      by_cases hne : e.path = ""
      · exact Or.inl (String.toList_eq_nil_iff.mpr hne)
      · exact Or.inr fun front back hword ↦ hnone.resolve_left hne (Span.byteLength front)
          ((Span.wordAt_iff hne).mpr ⟨front, back, hword, rfl⟩)
    rw [span, Span.ofPath_eq_whole hwhole, Span.whole, Span.byteLength_toList]

/-- An error at a path that overlaps itself. -/
def repeatedError : BindError where
  kind := .bindingLookup
  path := "x.x"
  message := ""

/-- In `é(x.x.x, x.x)` the path `x.x` occurs three times. The first two occurrences overlap, and
each is a part of `x.x.x`; the third is marked. -/
theorem marks_span_repeatedError :
    (∀ c ∈ repeatedError.path.toList, isPathChar c) ∧
      (repeatedError.span "é(x.x.x, x.x)").Within "é(x.x.x, x.x)" ∧
      (repeatedError.span "é(x.x.x, x.x)").Marks repeatedError.path "é(x.x.x, x.x)" ∧
      Span.WordAt repeatedError.path "é(x.x.x, x.x)" 10 ∧
      (∀ place < 10, ¬ Span.WordAt repeatedError.path "é(x.x.x, x.x)" place) ∧
      repeatedError.span "é(x.x.x, x.x)" = ⟨10, 13⟩ :=
  have h := BindError.marks_span repeatedError "é(x.x.x, x.x)"
  have hpath : ∀ c ∈ repeatedError.path.toList, isPathChar c := List.all_eq_true.mp rfl
  ⟨hpath, h.1, h.2 hpath, by decide, by decide, by decide⟩

end KernelCall
