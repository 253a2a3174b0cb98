import KernelCall.Proofs.Report.Span
import KernelCall.Proofs.Text.Lines

/-!
# Words in texts put together

Where a text is put together of parts with a break between them, a character that does not continue a
path or an end, its words are those of the parts. So a path that stands behind a break is marked there
unless it is a word of what is in front of it.

A text mentions a path if the path is a word of it. Paths begin like identifiers, and no number is one.
-/

namespace KernelCall

namespace Span

/-! ## Words of a text -/

variable {w front back s t : List Char}

/-- The word `w` occurs in a text. -/
def HasWord (w text : List Char) : Prop := ∃ front back, Between none w front back text

theorem isBoundary_of_or {a b : Option Char} (h : isBoundary (a.or b)) : isBoundary a := by
  cases a with
  | none => rfl
  | some c => exact h

theorem isBoundary_or {a b : Option Char} (ha : isBoundary a) (hb : isBoundary b) :
    isBoundary (a.or b) := by
  cases a with
  | none => exact hb
  | some c => exact ha

theorem eq_nil_of_isBoundary_head? (hw : ∀ c ∈ w, isPathChar c) (h : isBoundary w.head?) :
    w = [] := by
  cases w with
  | nil => rfl
  | cons c w =>
    rw [List.head?_cons, isBoundary, Option.any_some, hw c List.mem_cons_self] at h
    cases h

theorem eq_nil_of_isBoundary_getLast? (hw : ∀ c ∈ w, isPathChar c) (h : isBoundary w.getLast?) :
    w = [] := by
  rw [← List.head?_reverse] at h
  exact List.reverse_eq_nil_iff.mp
    (eq_nil_of_isBoundary_head? (fun c hc ↦ hw c (List.mem_reverse.mp hc)) h)

/-- A word of a text in two parts with a break between them is a word of one of the parts. -/
theorem Between.of_append (hw : ∀ c ∈ w, isPathChar c)
    (hbreak : isBoundary s.getLast? ∨ isBoundary t.head?)
    (h : Between none w front back (s ++ t)) :
    HasWord w s ∨ ∃ front', front = s ++ front' ∧ Between none w front' back t := by
  have hleft := h.left
  have hright := h.right
  rw [Option.or_none] at hleft
  rcases List.append_eq_append_iff.mp h.eq with ⟨front', rfl, ht⟩ | ⟨rest, rfl, hrest⟩
  · rw [List.getLast?_append] at hleft
    exact Or.inr ⟨front', rfl, ht, by rw [Option.or_none]; exact isBoundary_of_or hleft, hright⟩
  rcases List.append_eq_append_iff.mp hrest with ⟨back', rfl, rfl⟩ | ⟨rest', rfl, rfl⟩
  · rw [List.head?_append] at hright
    exact Or.inl ⟨front, back', rfl, h.left, isBoundary_of_or hright⟩
  · -- the word would run over the break
    rw [List.forall_mem_append] at hw
    rw [List.getLast?_append, List.head?_append] at hbreak
    rcases hbreak with hbreak | hbreak
    · obtain rfl := eq_nil_of_isBoundary_getLast? hw.1 (isBoundary_of_or hbreak)
      exact Or.inr ⟨[], by simp, by simp, rfl, hright⟩
    · obtain rfl := eq_nil_of_isBoundary_head? hw.2 (isBoundary_of_or hbreak)
      exact Or.inl ⟨front, [], by simp, h.left, rfl⟩

theorem Between.append_right (hne : w ≠ []) (hw : ∀ c ∈ w, isPathChar c)
    (hbreak : isBoundary s.getLast? ∨ isBoundary t.head?) (h : Between none w front back s) :
    Between none w front (back ++ t) (s ++ t) := by
  obtain ⟨rfl, hleft, hright⟩ := h
  refine ⟨by simp, hleft, ?_⟩
  cases back with
  | cons c back => exact hright
  | nil =>
    refine hbreak.resolve_left fun hlast ↦ hne ?_
    rw [List.append_nil, List.getLast?_append] at hlast
    exact eq_nil_of_isBoundary_getLast? hw (isBoundary_of_or hlast)

theorem Between.append_left (hne : w ≠ []) (hw : ∀ c ∈ w, isPathChar c)
    (hbreak : isBoundary s.getLast? ∨ isBoundary t.head?) (h : Between none w front back t) :
    Between none w (s ++ front) back (s ++ t) := by
  obtain ⟨rfl, hleft, hright⟩ := h
  refine ⟨by simp, ?_, hright⟩
  rw [Option.or_none] at hleft ⊢
  rw [List.getLast?_append]
  cases hlast : front.getLast? with
  | some c =>
    rw [hlast] at hleft
    exact hleft
  | none =>
    rw [List.getLast?_eq_none_iff.mp hlast, List.nil_append, List.head?_append] at hbreak
    exact hbreak.resolve_right fun hhead ↦
      hne (eq_nil_of_isBoundary_head? hw (isBoundary_of_or hhead))

/-- **Words do not run over breaks.** -/
theorem hasWord_append_iff (hne : w ≠ []) (hw : ∀ c ∈ w, isPathChar c)
    (hbreak : isBoundary s.getLast? ∨ isBoundary t.head?) :
    HasWord w (s ++ t) ↔ HasWord w s ∨ HasWord w t := by
  constructor
  · rintro ⟨front, back, h⟩
    exact (h.of_append hw hbreak).imp_right fun ⟨front', _, hword⟩ ↦ ⟨front', back, hword⟩
  · rintro (⟨front, back, h⟩ | ⟨front, back, h⟩)
    · exact ⟨front, back ++ t, h.append_right hne hw hbreak⟩
    · exact ⟨s ++ front, back, h.append_left hne hw hbreak⟩

/-- A text of path characters is a single word. -/
theorem hasWord_iff_eq (hs : ∀ c ∈ s, isPathChar c) : HasWord w s ↔ w = s := by
  constructor
  · rintro ⟨front, back, rfl, hleft, hright⟩
    rw [List.forall_mem_append, List.forall_mem_append] at hs
    rw [Option.or_none] at hleft
    rw [eq_nil_of_isBoundary_getLast? hs.1 hleft, eq_nil_of_isBoundary_head? hs.2.2 hright]
    simp
  · rintro rfl
    exact ⟨[], [], by simp, rfl, rfl⟩

theorem byteLength_pos (hne : w ≠ []) : 0 < byteLength w := by
  cases w with
  | nil => exact absurd rfl hne
  | cons c w =>
    rw [byteLength_cons]
    exact Nat.add_pos_left c.utf8Size_pos _

/-- **When a path marks a place.** A path that stands in a text behind a break is marked there exactly
if it is not a word of what is in front of it. -/
theorem ofPath_eq_iff (hne : w ≠ []) (hw : ∀ c ∈ w, isPathChar c) (hs : isBoundary s.getLast?)
    (ht : isBoundary t.head?) :
    ofPath w (s ++ (w ++ t)) = ⟨byteLength s, byteLength s + byteLength w⟩ ↔ ¬ HasWord w s := by
  have hown : Between none w s t (s ++ (w ++ t)) := ⟨rfl, by rwa [Option.or_none], ht⟩
  obtain ⟨first, rest, hfirst, hspan, hleast⟩ := hown.exists_ofPath_eq hne hw
  rw [hspan]
  constructor
  · rintro heq ⟨front, back, hword⟩
    have hle := hleast _ _ (hword.append_right hne hw (Or.inl hs))
    have hsum : byteLength s = byteLength front + (byteLength w + byteLength back) := by
      rw [hword.eq, byteLength_append, byteLength_append]
    have hpos := byteLength_pos hne
    have hstart : byteLength first = byteLength s := congrArg Span.start heq
    omega
  · intro hno
    obtain ⟨front', hfront, -⟩ := (hfirst.of_append hw (Or.inl hs)).resolve_left hno
    have hle : byteLength first ≤ byteLength s := hleast s t hown
    have hsum : byteLength first = byteLength s + byteLength front' := by
      rw [hfront, byteLength_append]
    rw [show byteLength first = byteLength s by omega]

end Span

/-! ## Paths -/

/-- An identifier, or several with dots between them: path characters, of which the first is not a
digit. -/
structure IsPath (path : String) : Prop where
  chars : ∀ c ∈ path.toList, isPathChar c
  head : path.toList.head?.any (!·.isDigit)

instance : DecidablePred IsPath := fun path ↦
  decidable_of_iff (path.toList.all isPathChar ∧ path.toList.head?.any (!·.isDigit))
    ⟨fun h ↦ ⟨List.all_eq_true.mp h.1, h.2⟩, fun h ↦ ⟨List.all_eq_true.mpr h.chars, h.head⟩⟩

theorem IsPath.ne_nil {path : String} (hpath : IsPath path) : path.toList ≠ [] := by
  intro hnil
  have hhead := hpath.head
  rw [hnil] at hhead
  cases hhead

theorem isPath_intercalate {names : List String} (hne : names ≠ [])
    (h : ∀ name ∈ names, IsPath name) : IsPath (".".intercalate names) := by
  constructor
  · intro c hc
    rcases Text.mem_of_mem_intercalate hc with hdot | ⟨name, hname, hc⟩
    · have hchar : ∀ c ∈ ".".toList, isPathChar c := List.all_eq_true.mp rfl
      exact hchar c hdot
    · exact (h name hname).chars c hc
  · obtain ⟨name, names, rfl⟩ := List.exists_cons_of_ne_nil hne
    have hfirst := h name List.mem_cons_self
    rw [String.toList_intercalate, List.map_cons, Text.intercalate_cons,
      List.head?_append_of_ne_nil]
    · exact hfirst.head
    · exact hfirst.ne_nil

/-! ## Mentioned paths -/

namespace Text

/-- A path stands in a text as a word. -/
def Mentions (text path : String) : Prop := Span.HasWord path.toList text.toList

theorem isBoundary_head?_join (ss : List String) :
    Span.isBoundary (String.join (ss.map (" " ++ ·))).toList.head? := by
  cases ss <;> simp [Span.isBoundary, isPathChar]

theorem isBoundary_getLast?_append (s : String) {t : String} {c : Char}
    (hlast : t.toList.getLast? = some c) (hc : isPathChar c = false) :
    Span.isBoundary (s ++ t).toList.getLast? := by
  rw [String.toList_append, List.getLast?_append, hlast, Option.some_or, Span.isBoundary,
    Option.any_some, hc]
  rfl

theorem isBoundary_getLast?_unlines (rows : List String) :
    Span.isBoundary (unlines rows).toList.getLast? := by
  induction rows with
  | nil => rfl
  | cons row rows ih =>
    rw [unlines_cons, String.toList_append, List.getLast?_append]
    exact Span.isBoundary_or ih (isBoundary_getLast?_append row (t := "\n") rfl rfl)

theorem mentions_iff_eq {path s : String} (hs : ∀ c ∈ s.toList, isPathChar c) :
    Mentions s path ↔ path = s := by
  rw [Mentions, Span.hasWord_iff_eq hs, String.toList_inj]

section

variable {path s t : String} (hpath : IsPath path)

include hpath

theorem mentions_append_iff
    (hbreak : Span.isBoundary s.toList.getLast? ∨ Span.isBoundary t.toList.head?) :
    Mentions (s ++ t) path ↔ Mentions s path ∨ Mentions t path := by
  rw [Mentions, String.toList_append]
  exact Span.hasWord_append_iff hpath.ne_nil hpath.chars hbreak

theorem not_mentions (hs : ∀ c ∈ s.toList, isPathChar c → c.isDigit) : ¬ Mentions s path := by
  rintro ⟨front, back, heq, -⟩
  obtain ⟨c, cs, hc⟩ := List.exists_cons_of_ne_nil hpath.ne_nil
  have hmem : c ∈ s.toList := by
    rw [heq, hc]
    simp
  have hdigit := hs c hmem (hpath.chars c (hc ▸ List.mem_cons_self))
  have hhead := hpath.head
  rw [hc, List.head?_cons, Option.any_some, hdigit] at hhead
  cases hhead

/-- What stands between words mentions nothing. -/
theorem not_mentions_breaks (s : String) (hs : s.toList.all (!isPathChar ·)) :
    ¬ Mentions s path := by
  refine not_mentions hpath fun c hc hchar ↦ ?_
  have hbreak := List.all_eq_true.mp hs c hc
  rw [hchar] at hbreak
  cases hbreak

/-- Texts with a blank before each mention what the texts mention. -/
theorem mentions_join_iff {ss : List String} :
    Mentions (String.join (ss.map (" " ++ ·))) path ↔ ∃ s ∈ ss, Mentions s path := by
  induction ss with
  | nil => simpa using not_mentions_breaks hpath "" rfl
  | cons s ss ih =>
    rw [List.map_cons, String.join_cons,
      mentions_append_iff hpath (Or.inr (isBoundary_head?_join ss)), ih,
      mentions_append_iff hpath (Or.inl rfl), or_iff_right (not_mentions_breaks hpath " " rfl),
      List.exists_mem_cons_iff]

theorem mentions_unlines_iff {rows : List String} :
    Mentions (unlines rows) path ↔ ∃ row ∈ rows, Mentions row path := by
  induction rows with
  | nil => simpa using not_mentions_breaks hpath "" rfl
  | cons row rows ih =>
    have hlast := isBoundary_getLast?_append row (t := "\n") rfl rfl
    rw [unlines_cons, mentions_append_iff hpath (Or.inl hlast),
      mentions_append_iff hpath (Or.inr rfl),
      or_iff_left (not_mentions_breaks hpath "\n" rfl), ih, List.exists_mem_cons_iff]

end

end Text

end KernelCall
