import KernelCall.Proofs.KernelType.Generic
import KernelCall.Proofs.Text.Token

/-!
# The grammar of generic names

A generic name is a base, an opening bracket, a text whose brackets are matched and a closing
bracket, and the reader accepts nothing else. The pieces that it finds are what stands between the
commas outside of brackets, so a name can be put together from any pieces and is taken apart into
the same.

The reader goes from left to right and remembers how many brackets are open. What it has yet to
read is therefore judged behind that many brackets (`Closes`, `Piece`), and a character changes
their number in one way only: `closes_cons` and `piece_cons` say so for all characters at once.
-/

namespace KernelCall.KernelType

variable {cs ds p : List Char} {ps : List (List Char)} {c : Char} {depth after : ℕ}

/-! ## Matched brackets -/

/-- The brackets of the text are matched: no prefix has more closing brackets than opening ones, and
the text has as many of either. -/
structure Matched (cs : List Char) : Prop where
  front : ∀ ds, ds <+: cs → ds.count '>' ≤ ds.count '<'
  whole : cs.count '<' = cs.count '>'

/-- No comma stands outside of the brackets of the text. -/
def Undivided (cs : List Char) : Prop :=
  ∀ ds es, cs = ds ++ ',' :: es → ds.count '<' ≠ ds.count '>'

/-- The pieces of a text between the commas outside of its brackets. There is at least one. -/
structure Cut (cs : List Char) (ps : List (List Char)) : Prop where
  nonempty : ps ≠ []
  text : cs = [','].intercalate ps
  pieces : ∀ p ∈ ps, Matched p ∧ Undivided p

/-! ## Behind open brackets -/

/-- Behind `depth` open brackets the text closes all of them, and never one that is not open. -/
structure Closes (depth : ℕ) (cs : List Char) : Prop where
  front : ∀ ds, ds <+: cs → ds.count '>' ≤ depth + ds.count '<'
  whole : depth + cs.count '<' = cs.count '>'

/-- Besides, no comma stands outside of brackets. -/
structure Piece (depth : ℕ) (cs : List Char) : Prop extends Closes depth cs where
  undivided : ∀ ds es, cs = ds ++ ',' :: es → depth + ds.count '<' ≠ ds.count '>'

theorem closes_zero_iff : Closes 0 cs ↔ Matched cs := by
  constructor
  · rintro ⟨hfront, hwhole⟩
    simp only [Nat.zero_add] at hfront hwhole
    exact ⟨hfront, hwhole⟩
  · rintro ⟨hfront, hwhole⟩
    refine ⟨?_, ?_⟩ <;> simpa only [Nat.zero_add]

theorem piece_zero_iff : Piece 0 cs ↔ Matched cs ∧ Undivided cs := by
  rw [← closes_zero_iff, Undivided]
  constructor
  · rintro ⟨hcloses, hundivided⟩
    exact ⟨hcloses, by simpa only [Nat.zero_add] using hundivided⟩
  · rintro ⟨hcloses, hundivided⟩
    exact ⟨hcloses, by simpa only [Nat.zero_add]⟩

theorem closes_nil : Closes depth [] ↔ depth = 0 := by
  constructor
  · rintro ⟨-, hwhole⟩
    simpa using hwhole
  · rintro rfl
    exact ⟨by simp, rfl⟩

theorem piece_nil : Piece depth [] ↔ depth = 0 := by
  constructor
  · exact fun h ↦ closes_nil.mp h.toCloses
  · exact fun h ↦ ⟨closes_nil.mpr h, by simp⟩

/-- How many brackets are open behind a character, `depth` being open in front of it. -/
def Passes (depth : ℕ) (c : Char) (after : ℕ) : Prop :=
  depth + [c].count '<' = after + [c].count '>'

theorem passes_open : Passes depth '<' (depth + 1) := rfl

theorem passes_close : Passes (depth + 1) '>' depth := rfl

theorem passes_of_ne (hopen : c ≠ '<') (hclose : c ≠ '>') : Passes depth c depth := by
  rw [Passes, List.count_singleton, List.count_singleton, if_neg (by simpa using hopen),
    if_neg (by simpa using hclose)]

theorem closes_cons (h : Passes depth c after) : Closes depth (c :: cs) ↔ Closes after cs := by
  rw [Passes] at h
  constructor
  · rintro ⟨hfront, hwhole⟩
    constructor
    · intro ds hds
      have := hfront (c :: ds) (List.cons_prefix_cons.mpr ⟨rfl, hds⟩)
      rw [← List.singleton_append, List.count_append, List.count_append] at this
      omega
    · rw [← List.singleton_append, List.count_append, List.count_append] at hwhole
      omega
  · rintro ⟨hfront, hwhole⟩
    constructor
    · intro ds hds
      rcases ds with _ | ⟨d, ds⟩
      · exact Nat.zero_le _
      · obtain ⟨rfl, hprefix⟩ := List.cons_prefix_cons.mp hds
        have := hfront ds hprefix
        rw [← List.singleton_append, List.count_append, List.count_append]
        omega
    · rw [← List.singleton_append, List.count_append, List.count_append]
      omega

theorem not_closes_close : ¬ Closes 0 ('>' :: cs) := by
  intro h
  have := h.front ['>'] (List.prefix_append ['>'] cs)
  simp at this

theorem piece_cons (h : Passes depth c after) :
    Piece depth (c :: cs) ↔ (c = ',' → depth ≠ 0) ∧ Piece after cs := by
  have hstep : ∀ ds : List Char, depth + (c :: ds).count '<' ≠ (c :: ds).count '>' ↔
      after + ds.count '<' ≠ ds.count '>' := by
    intro ds
    rw [Passes] at h
    rw [← List.singleton_append, List.count_append, List.count_append]
    omega
  constructor
  · rintro ⟨hcloses, hundivided⟩
    refine ⟨?_, (closes_cons h).mp hcloses, fun ds es hcs ↦ ?_⟩
    · rintro rfl
      simpa using hundivided [] cs rfl
    · rw [← hstep]
      exact hundivided (c :: ds) es (by rw [hcs, List.cons_append])
  · rintro ⟨hcomma, hcloses, hundivided⟩
    refine ⟨(closes_cons h).mpr hcloses, fun ds es hcs ↦ ?_⟩
    rcases ds with _ | ⟨d, ds⟩
    · simpa using hcomma (List.cons.inj hcs).1
    · obtain ⟨rfl, hrest⟩ := List.cons.inj hcs
      exact (hstep ds).mpr (hundivided ds es hrest)

/-! ## Cutting a text -/

/-- Behind `depth` open brackets, the first piece closes these. -/
structure CutBehind (depth : ℕ) (cs : List Char) (ps : List (List Char)) : Prop where
  text : cs = [','].intercalate ps
  head : ∃ p ∈ ps.head?, Piece depth p
  tail : ∀ p ∈ ps.tail, Piece 0 p

theorem cutBehind_zero_iff : CutBehind 0 cs ps ↔ Cut cs ps := by
  rcases ps with _ | ⟨p, ps⟩
  · exact iff_of_false (fun h ↦ by simpa using h.head) fun h ↦ h.nonempty rfl
  · constructor
    · rintro ⟨htext, ⟨q, hq, hhead⟩, htail⟩
      obtain rfl : p = q := Option.some.inj hq
      simp only [piece_zero_iff] at hhead htail
      exact ⟨List.cons_ne_nil p ps, htext, List.forall_mem_cons.mpr ⟨hhead, htail⟩⟩
    · rintro ⟨-, htext, hpieces⟩
      simp only [← piece_zero_iff, List.forall_mem_cons] at hpieces
      exact ⟨htext, ⟨p, rfl, hpieces.1⟩, hpieces.2⟩

theorem cutBehind_nil : CutBehind depth [] ps ↔ depth = 0 ∧ ps = [[]] := by
  constructor
  · rintro ⟨htext, ⟨p, hp, hhead⟩, -⟩
    rcases ps with _ | ⟨q, _ | ⟨r, ps⟩⟩
    · cases hp
    · obtain rfl : q = p := Option.some.inj hp
      rw [List.intercalate_singleton] at htext
      subst htext
      exact ⟨piece_nil.mp hhead, rfl⟩
    · simp at htext
  · rintro ⟨rfl, rfl⟩
    exact ⟨rfl, ⟨[], rfl, piece_nil.mpr rfl⟩, by simp⟩

/-- The first character is the first of the first piece, or a comma outside of brackets behind an
empty one. -/
theorem CutBehind.cases_cons (h : CutBehind depth (c :: cs) ps) :
    (∃ q qs, ps = (c :: q) :: qs ∧ Piece depth (c :: q) ∧ (∀ p ∈ qs, Piece 0 p) ∧
      cs = [','].intercalate (q :: qs)) ∨
    (c = ',' ∧ depth = 0 ∧ ∃ qs, ps = [] :: qs ∧ CutBehind 0 cs qs) := by
  obtain ⟨htext, ⟨p, hp, hhead⟩, htail⟩ := h
  rcases ps with _ | ⟨q, ps⟩
  · cases hp
  obtain rfl : q = p := Option.some.inj hp
  rcases q with _ | ⟨d, q⟩
  · right
    rcases ps with _ | ⟨r, ps⟩
    · cases htext
    · rw [List.intercalate_cons_cons] at htext
      obtain ⟨rfl, hrest⟩ := List.cons.inj htext
      rw [List.tail_cons, List.forall_mem_cons] at htail
      exact ⟨rfl, piece_nil.mp hhead, r :: ps, rfl, hrest, ⟨r, rfl, htail.1⟩, htail.2⟩
  · left
    rw [Text.intercalate_cons] at htext
    obtain ⟨rfl, hrest⟩ := List.cons.inj htext
    exact ⟨q, ps, rfl, hhead, htail, hrest.trans (Text.intercalate_cons [','] q ps).symm⟩

/-- Any character but a comma outside of brackets goes to the first piece. -/
theorem cutBehind_cons (h : Passes depth c after) (hc : c = ',' → depth ≠ 0) :
    CutBehind depth (c :: cs) ps ↔ ∃ qs, CutBehind after cs qs ∧ consHead c qs = ps := by
  constructor
  · intro hcut
    rcases hcut.cases_cons with ⟨q, qs, rfl, hhead, htail, htext⟩ | ⟨hcomma, hdepth, -⟩
    · exact ⟨q :: qs, ⟨htext, ⟨q, rfl, ((piece_cons h).mp hhead).2⟩, htail⟩, rfl⟩
    · exact absurd hdepth (hc hcomma)
  · rintro ⟨qs, ⟨htext, ⟨p, hp, hhead⟩, htail⟩, rfl⟩
    rcases qs with _ | ⟨q, qs⟩
    · cases hp
    obtain rfl : q = p := Option.some.inj hp
    refine ⟨?_, ⟨c :: q, rfl, (piece_cons h).mpr ⟨hc, hhead⟩⟩, htail⟩
    rw [htext, consHead, Text.intercalate_cons, Text.intercalate_cons, List.cons_append]

/-- A comma outside of brackets ends the first piece. -/
theorem cutBehind_comma :
    CutBehind 0 (',' :: cs) ps ↔ ∃ qs, CutBehind 0 cs qs ∧ [] :: qs = ps := by
  have hplain : Passes 0 ',' 0 := passes_of_ne (by decide) (by decide)
  constructor
  · intro hcut
    rcases hcut.cases_cons with ⟨q, qs, -, hhead, -⟩ | ⟨-, -, qs, rfl, hrest⟩
    · exact absurd rfl (((piece_cons hplain).mp hhead).1 rfl)
    · exact ⟨qs, hrest, rfl⟩
  · rintro ⟨qs, ⟨htext, ⟨p, hp, hhead⟩, htail⟩, rfl⟩
    rcases qs with _ | ⟨q, qs⟩
    · cases hp
    obtain rfl : q = p := Option.some.inj hp
    refine ⟨?_, ⟨[], rfl, piece_nil.mpr rfl⟩, List.forall_mem_cons.mpr ⟨hhead, htail⟩⟩
    rw [htext, List.intercalate_cons_cons]
    rfl

/-- What is not read as a bracket, or as a comma outside of brackets, leaves as many of them open.
-/
private theorem passes_of_rest (hopen : c ≠ '<') (hzero : depth = 0 → c ≠ '>')
    (hsucc : ∀ d, depth = d + 1 → c ≠ '>') : Passes depth c depth := by
  refine passes_of_ne hopen ?_
  rcases depth with _ | depth
  · exact hzero rfl
  · exact hsucc depth rfl

/-- **What a text is cut into** behind some open brackets. -/
theorem pieces?_eq_some_iff : pieces? depth cs = some ps ↔ CutBehind depth cs ps := by
  fun_induction pieces? depth cs generalizing ps with
  | case1 =>
    rw [cutBehind_nil, Option.some.injEq, eq_comm]
    exact (and_iff_right rfl).symm
  | case2 depth hdepth => exact iff_of_false (by simp) fun h ↦ hdepth (cutBehind_nil.mp h).1
  | case3 depth cs ih =>
    rw [Option.map_eq_some_iff, cutBehind_cons passes_open (by simp)]
    simp only [ih]
  | case4 cs =>
    refine iff_of_false (by simp) fun h ↦ ?_
    rcases h.cases_cons with ⟨q, qs, -, hhead, -⟩ | ⟨hcomma, -⟩
    · exact not_closes_close hhead.toCloses
    · cases hcomma
  | case5 cs depth ih =>
    rw [Option.map_eq_some_iff, cutBehind_cons passes_close (by simp)]
    simp only [ih]
  | case6 cs ih =>
    rw [Option.map_eq_some_iff, cutBehind_comma]
    simp only [ih]
  | case7 depth c cs hopen hzero hsucc hcomma ih =>
    rw [Option.map_eq_some_iff, cutBehind_cons (passes_of_rest hopen hzero hsucc)
      fun hc hdepth ↦ hcomma hdepth hc]
    simp only [ih]

/-- **Which texts are cut** behind some open brackets: those that close them. -/
theorem exists_pieces?_iff : (∃ ps, pieces? depth cs = some ps) ↔ Closes depth cs := by
  have hstep : ∀ {α β : Type} {x? : Option α} {f : α → β},
      (∃ y, x?.map f = some y) ↔ ∃ x, x? = some x := by
    intro α β x? f
    cases x? <;> simp
  fun_induction pieces? depth cs with
  | case1 => exact iff_of_true ⟨_, rfl⟩ (closes_nil.mpr rfl)
  | case2 depth hdepth => exact iff_of_false (by simp) fun h ↦ hdepth (closes_nil.mp h)
  | case3 depth cs ih => exact (hstep.trans ih).trans (closes_cons passes_open).symm
  | case4 cs => exact iff_of_false (by simp) not_closes_close
  | case5 cs depth ih => exact (hstep.trans ih).trans (closes_cons passes_close).symm
  | case6 cs ih =>
    exact (hstep.trans ih).trans (closes_cons (passes_of_ne (by decide) (by decide))).symm
  | case7 depth c cs hopen hzero hsucc hcomma ih =>
    exact (hstep.trans ih).trans (closes_cons (passes_of_rest hopen hzero hsucc)).symm

/-! ## Generic names -/

/-- A generic name, and what its parts are. -/
theorem generic?_eq_some_iff {base : List Char} {args : List (List Char)} :
    generic? cs = some (base, args) ↔ '<' ∉ base ∧ ∃ body ps, cs = base ++ '<' :: body ++ ['>'] ∧
      pieces? 0 body = some ps ∧ args = ps.map Text.trim := by
  constructor
  · intro h
    rw [generic?] at h
    split at h
    · cases h
    next c rest hrest =>
    split at h
    · next hlast =>
      obtain ⟨ps, hps, he⟩ := Option.map_eq_some_iff.mp h
      obtain ⟨rfl, rfl⟩ := Prod.mk.inj he
      obtain rfl : c = '<' := by
        have hhead := List.head?_dropWhile_not (· != '<') cs
        rw [hrest] at hhead
        simpa using hhead
      have hbase : '<' ∉ cs.takeWhile (· != '<') := fun hmem ↦
        absurd (List.all_eq_true.mp List.all_takeWhile '<' hmem) (by simp)
      refine ⟨hbase, rest.dropLast, ps, ?_, hps, rfl⟩
      rw [List.append_assoc, List.cons_append, List.dropLast_append_getLast? _ hlast, ← hrest,
        List.takeWhile_append_dropWhile]
    · cases h
  · rintro ⟨hbase, body, ps, rfl, hps, rfl⟩
    exact generic?_eq hbase hps

theorem pieces?_zero_eq_some_iff : pieces? 0 cs = some ps ↔ Cut cs ps :=
  pieces?_eq_some_iff.trans cutBehind_zero_iff

theorem exists_pieces?_zero_iff : (∃ ps, pieces? 0 cs = some ps) ↔ Matched cs :=
  exists_pieces?_iff.trans closes_zero_iff

/-- A text that is not cut is one piece of a longer text. -/
theorem matched_undivided_iff : Matched cs ∧ Undivided cs ↔ pieces? 0 cs = some [cs] := by
  rw [pieces?_zero_eq_some_iff]
  constructor
  · intro h
    exact ⟨List.cons_ne_nil cs [], List.intercalate_singleton.symm, List.forall_mem_singleton.mpr h⟩
  · exact fun h ↦ h.pieces cs List.mem_cons_self

instance (cs : List Char) : Decidable (Matched cs ∧ Undivided cs) :=
  decidable_of_iff (pieces? 0 cs = some [cs]) matched_undivided_iff.symm

/-- **The grammar of generic names.** A text is a generic name with a given base and given
arguments if and only if it is the base, which has no opening bracket, followed by a text in
brackets whose own brackets are matched, and the arguments are its pieces between the commas
outside of brackets, of which there is at least one, without the blanks around them. Any such base
and such a text make a generic name; and pieces that have no blanks around them, matched brackets
and no comma outside of these, are read from the name that is put together from them. -/
theorem generic?_grammar (cs : List Char) :
    (∀ base args, generic? cs = some (base, args) ↔ '<' ∉ base ∧
      ∃ body ps, cs = base ++ '<' :: body ++ ['>'] ∧ Matched body ∧ Cut body ps ∧
        args = ps.map Text.trim) ∧
    ((∃ base args, generic? cs = some (base, args)) ↔
      ∃ base body, '<' ∉ base ∧ cs = base ++ '<' :: body ++ ['>'] ∧ Matched body) ∧
    ∀ base ps, '<' ∉ base → ps ≠ [] →
      (∀ p ∈ ps, Text.trim p = p ∧ Matched p ∧ Undivided p) →
      generic? (base ++ '<' :: [','].intercalate ps ++ ['>']) = some (base, ps) := by
  refine ⟨fun base args ↦ ?_, ?_, fun base ps hbase hne hps ↦ ?_⟩
  · rw [generic?_eq_some_iff]
    refine and_congr_right fun _ ↦ exists_congr fun body ↦ exists_congr fun ps ↦ ?_
    rw [← pieces?_zero_eq_some_iff]
    refine and_congr_right fun _ ↦ ?_
    constructor
    · rintro ⟨hps, hargs⟩
      exact ⟨exists_pieces?_zero_iff.mp ⟨ps, hps⟩, hps, hargs⟩
    · exact And.right
  · simp only [generic?_eq_some_iff]
    constructor
    · rintro ⟨base, -, hbase, body, ps, rfl, hps, -⟩
      exact ⟨base, body, hbase, rfl, exists_pieces?_zero_iff.mp ⟨ps, hps⟩⟩
    · rintro ⟨base, body, hbase, rfl, hbody⟩
      obtain ⟨ps, hps⟩ := exists_pieces?_zero_iff.mpr hbody
      exact ⟨base, ps.map Text.trim, hbase, body, ps, rfl, hps, rfl⟩
  · have hcut : Cut ([','].intercalate ps) ps := ⟨hne, rfl, fun p hp ↦ (hps p hp).2⟩
    have htrim : ps.map Text.trim = ps :=
      (List.map_congr_left fun p hp ↦ (hps p hp).1).trans ps.map_id
    rw [generic?_eq hbase (pieces?_zero_eq_some_iff.mpr hcut), htrim]

/-- A name with an inner one, whose comma is not taken for an outer one. -/
theorem generic?_grammar_pair : generic? "Pair<Foo<a,b>,3>".toList =
    some ("Pair".toList, ["Foo<a,b>".toList, "3".toList]) :=
  (generic?_grammar []).2.2 "Pair".toList ["Foo<a,b>".toList, "3".toList] (by decide) (by decide)
    (by decide)

end KernelCall.KernelType
