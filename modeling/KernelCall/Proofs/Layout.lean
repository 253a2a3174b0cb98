import KernelCall.Layout
import KernelCall.Proofs.KernelType.Generic
import KernelCall.Proofs.Text.Count

/-!
# Type names read back

A type is found again under its own name. The reader tries its rules in a fixed order and splits
by the marks of composite names, so the proof needs three things of a name: which rule is the first
to apply, that the marks of inner names do not move the split, and that the parts are names of
known types again.

That no name is taken by an earlier rule is what a layout has to answer for: registered names are
words, which hold no mark, and none of them is the name of a numeric type. Inner marks are
harmless because the names of known types are whole, and because no digit is a bracket.
-/

namespace KernelCall

open Text KernelType

/-! ## Words -/

/-- The characters of words: neither blanks nor marks of composite names. -/
def Text.IsWordChar (c : Char) : Prop := isBlank c = false ∧ c ∉ ['<', '>', ',', '[', ']']

instance : DecidablePred IsWordChar := fun _ ↦ inferInstanceAs (Decidable (_ ∧ _))

/-- A name of word characters only, such as every identifier. -/
def IsWord (name : String) : Prop := ∀ c ∈ name.toList, IsWordChar c

instance : DecidablePred IsWord := fun name ↦ List.decidableBAll IsWordChar name.toList

theorem Text.isWordChar_of_isDigit {c : Char} (h : c.isDigit) : IsWordChar c := by
  refine ⟨isBlank_of_isDigit h, fun hc ↦ ?_⟩
  have hno : ['<', '>', ',', '[', ']'].all (!·.isDigit) := rfl
  simpa [h] using List.all_eq_true.mp hno c hc

theorem isWord_toString (n : Nat) : IsWord (toString n) :=
  fun _ hc ↦ isWordChar_of_isDigit (isDigit_of_mem_toString hc)

theorem IsWord.append {a b : String} (ha : IsWord a) (hb : IsWord b) : IsWord (a ++ b) := by
  intro c hc
  rw [String.toList_append, List.mem_append] at hc
  exact hc.elim (ha c) (hb c)

theorem IsWord.whole {name : String} (h : IsWord name) : Whole name.toList :=
  whole_of_plain fun c hc ↦ by
    have hmark := (h c hc).2
    simp only [List.mem_cons, not_or] at hmark
    exact ⟨hmark.1, hmark.2.1, hmark.2.2.1⟩

/-! ## Numeric types -/

namespace Scalar

theorem mem_all (s : Scalar) : s ∈ all := by
  cases s <;> decide

theorem isWord_name (s : Scalar) : IsWord s.name := by
  cases s <;> decide

theorem not_isDigit_of_mem_name (s : Scalar) : ∀ c ∈ s.name.toList, (!c.isDigit) = true :=
  List.all_eq_true.mp (by cases s <;> rfl)

theorem ofName?_eq_none {cs : List Char} {c : Char} (hc : c ∈ cs) (h : c.isDigit) :
    ofName? (String.ofList cs) = none := by
  refine List.find?_eq_none.2 fun s _ hs ↦ ?_
  have hname : s.name = String.ofList cs := beq_iff_eq.1 hs
  have hnot := s.not_isDigit_of_mem_name c (by rwa [hname, String.toList_ofList])
  simp [h] at hnot

end Scalar

namespace KernelType

/-- How many components a vector, or a matrix along one of its dimensions, can have. -/
def componentCounts : List Nat := [1, 2, 3, 4]

/-- The built-in numeric types. -/
def numerics : List KernelType :=
  Scalar.all.flatMap fun s ↦ .scalar s :: (componentCounts.map (.vector s) ++
    componentCounts.flatMap fun rows ↦ componentCounts.map (.matrix s rows))

theorem mem_numerics_iff {t : KernelType} : t ∈ numerics ↔ ∃ s, t = .scalar s ∨
    (∃ n ∈ componentCounts, t = .vector s n) ∨
    ∃ r ∈ componentCounts, ∃ c ∈ componentCounts, t = .matrix s r c := by
  simp [numerics, Scalar.mem_all, eq_comm]

theorem isWord_name_of_mem_numerics {t : KernelType} (h : t ∈ numerics) : IsWord t.name := by
  have hx : IsWord "x" := by decide
  obtain ⟨s, rfl | ⟨n, -, rfl⟩ | ⟨r, -, c, -, rfl⟩⟩ := mem_numerics_iff.1 h
  · exact s.isWord_name
  · exact s.isWord_name.append (isWord_toString n)
  · exact ((s.isWord_name.append (isWord_toString r)).append hx).append (isWord_toString c)

end KernelType

namespace Layout

theorem componentCount?_eq_some_iff {cs : List Char} {n : Nat} :
    componentCount? cs = some n ↔ readCount? cs = some n ∧ n ∈ componentCounts := by
  have hcounts : n ∈ componentCounts ↔ (1 ≤ n && n ≤ 4) = true := by
    simp only [componentCounts, List.mem_cons, List.not_mem_nil, or_false, Bool.and_eq_true,
      decide_eq_true_eq]
    omega
  rw [componentCount?, Option.filter_eq_some_iff, hcounts]

theorem componentCount?_toString {n : Nat} (h : n ∈ componentCounts) :
    componentCount? (toString n).toList = some n := by
  have hmax : ∀ n ∈ componentCounts, n ≤ maxCount := by decide
  exact componentCount?_eq_some_iff.2 ⟨readCount?_toString (hmax n h), h⟩

/-- A numeric name that has a digit is a scalar's name in front of its sizes. -/
theorem numeric?_append (s : Scalar) (n : Nat) (rest : List Char) :
    numeric? (s.name.toList ++ ((toString n).toList ++ rest)) =
      match ((toString n).toList ++ rest).dropWhile (· != 'x') with
      | [] => return .vector s (← componentCount? ((toString n).toList ++ rest))
      | _ :: cols => do
        let rows ← componentCount? (((toString n).toList ++ rest).takeWhile (· != 'x'))
        return .matrix s rows (← componentCount? cols) := by
  obtain ⟨d, ds, hds⟩ := List.exists_cons_of_ne_nil (toList_toString_ne_nil n)
  have hd : d.isDigit := isDigit_of_mem_toString (hds ▸ List.mem_cons_self)
  have hdrop : (s.name.toList ++ (d :: ds ++ rest)).dropWhile (!·.isDigit) = d :: ds ++ rest := by
    rw [List.dropWhile_append_of_pos s.not_isDigit_of_mem_name, List.cons_append,
      List.dropWhile_cons_of_neg (by simp [hd])]
  have htake : (s.name.toList ++ (d :: ds ++ rest)).takeWhile (!·.isDigit) = s.name.toList := by
    rw [List.takeWhile_append_of_pos s.not_isDigit_of_mem_name, List.cons_append,
      List.takeWhile_cons_of_neg (by simp [hd]), List.append_nil]
  rw [hds, numeric?, Scalar.ofName?_eq_none (by simp) hd, htake, hdrop, String.ofList_toList,
    Scalar.ofName?_name]
  rfl

/-- Every numeric type is read from its name. -/
theorem numeric?_name {t : KernelType} (h : t ∈ numerics) : numeric? t.name.toList = some t := by
  have hne : ∀ n : Nat, ∀ d ∈ (toString n).toList, (d != 'x') = true := fun n d hd ↦
    bne_iff_ne.2 fun he ↦ absurd (he ▸ isDigit_of_mem_toString hd) (by decide)
  obtain ⟨s, rfl | ⟨n, hn, rfl⟩ | ⟨r, hr, c, hc, rfl⟩⟩ := mem_numerics_iff.1 h
  · rw [numeric?, name, String.ofList_toList, Scalar.ofName?_name]
  · have hsizes := numeric?_append s n []
    rw [List.dropWhile_append_of_pos (hne n), List.append_nil,
      componentCount?_toString hn] at hsizes
    rw [name, String.toList_append, hsizes]
    rfl
  · have hsizes := numeric?_append s r ('x' :: (toString c).toList)
    rw [List.dropWhile_append_of_pos (hne r), List.takeWhile_append_of_pos (hne r),
      List.dropWhile_cons_of_neg (by simp), List.takeWhile_cons_of_neg (by simp), List.append_nil,
      componentCount?_toString hr] at hsizes
    dsimp only at hsizes
    rw [componentCount?_toString hc] at hsizes
    simp only [name, String.toList_append, List.append_assoc]
    exact hsizes

theorem mem_numerics_of_numeric? {cs : List Char} {t : KernelType} (h : numeric? cs = some t) :
    t ∈ numerics := by
  rw [mem_numerics_iff]
  unfold numeric? at h
  split at h
  case h_1 s _ =>
    cases h
    exact ⟨s, .inl rfl⟩
  case h_2 =>
    obtain ⟨s, -, h⟩ := Option.bind_eq_some_iff.1 h
    dsimp only at h
    split at h
    · obtain ⟨n, hn, ht⟩ := Option.bind_eq_some_iff.1 h
      cases ht
      exact ⟨s, .inr (.inl ⟨n, (componentCount?_eq_some_iff.1 hn).2, rfl⟩)⟩
    · obtain ⟨r, hr, h⟩ := Option.bind_eq_some_iff.1 h
      obtain ⟨c, hc, ht⟩ := Option.bind_eq_some_iff.1 h
      cases ht
      exact ⟨s, .inr (.inr ⟨r, (componentCount?_eq_some_iff.1 hr).2, c,
        (componentCount?_eq_some_iff.1 hc).2, rfl⟩)⟩

end Layout

/-! ## Layouts -/

namespace Layout

/-- The names that a layout gives a type to. -/
def names (layout : Layout) : List String := layout.types.map (·.1) ++ layout.interfaces

/-- A layout of structs and interfaces, each under a word of its own that is not the name of a
numeric type. -/
structure Proper (layout : Layout) : Prop where
  isStruct : ∀ p ∈ layout.types, p.2.isStruct ∧ p.2.name = p.1
  isWord : ∀ name ∈ layout.names, IsWord name
  distinct : ∀ p ∈ layout.types, p.1 ∉ layout.interfaces
  not_numeric : ∀ name ∈ layout.names, ∀ t ∈ numerics, t.name ≠ name

/-- The types of a layout: numeric types, its structs and interfaces, and arrays, buffers and
textures of its types, of any extent and number of dimensions that fits in a word. -/
inductive Knows (layout : Layout) : KernelType → Prop
  | numeric {t} (ht : t ∈ numerics) : Knows layout t
  | struct {name fs d} (h : layout.types.find? (·.1 == name) = some (name, .struct name fs d)) :
    Knows layout (.struct name fs d)
  | interface {name} (h : name ∈ layout.interfaces) : Knows layout (.interface name)
  | array {e n} (he : Knows layout e) (hn : n ≤ maxCount) : Knows layout (.array e n)
  | buffer {e n w} (he : Knows layout e) (hn : n ≤ maxCount) : Knows layout (.buffer e n w)
  | texture {e n w} (he : Knows layout e) (hn : n ≤ maxCount) : Knows layout (.texture e n w)

variable {layout : Layout} {t : KernelType} {name : String}

/-! ### Registered names -/

theorem mem_names_of_registered? (h : layout.registered? name = some t) : name ∈ layout.names := by
  unfold registered? at h
  rw [names, List.mem_append, List.mem_map]
  split at h
  · next p hp =>
    exact .inl ⟨_, List.mem_of_find?_eq_some hp, by simpa using List.find?_some hp⟩
  · split at h
    · next hi => exact .inr (by simpa using hi)
    · simp at h

theorem Proper.registered?_eq_none (hp : layout.Proper) (h : ¬ IsWord name) :
    layout.registered? name = none :=
  Option.eq_none_iff_forall_ne_some.2 fun _ ht ↦ h (hp.isWord _ (mem_names_of_registered? ht))

theorem Proper.registered?_numeric (hp : layout.Proper) (ht : t ∈ numerics) :
    layout.registered? t.name = none :=
  Option.eq_none_iff_forall_ne_some.2 fun _ h ↦
    hp.not_numeric _ (mem_names_of_registered? h) t ht rfl

theorem Proper.registered?_interface (hp : layout.Proper) (h : name ∈ layout.interfaces) :
    layout.registered? name = some (.interface name) := by
  have hnone : layout.types.find? (·.1 == name) = none := by
    rw [List.find?_eq_none]
    intro p hmem heq
    exact hp.distinct p hmem (beq_iff_eq.1 heq ▸ h)
  simp [registered?, hnone, h]

theorem Proper.knows_of_registered? (hp : layout.Proper) (h : layout.registered? name = some t) :
    layout.Knows t := by
  unfold registered? at h
  split at h
  · next key u hfind =>
    cases h
    have hkey : key = name := by simpa using List.find?_some hfind
    obtain ⟨hstruct, hname⟩ := hp.isStruct _ (List.mem_of_find?_eq_some hfind)
    cases t with
    | struct sname fs d =>
      obtain rfl : sname = key := hname
      exact .struct (hkey ▸ hfind)
    | _ => cases hstruct
  · split at h
    · next hi =>
      cases h
      exact .interface (by simpa using hi)
    · simp at h

/-! ### Composite names -/

theorem splitLastBracket?_append {element size : List Char} (h : '[' ∉ size) :
    splitLastBracket? (element ++ '[' :: size) = some (element, size) := by
  have hne : ∀ c ∈ size.reverse, (c != '[') = true := fun c hc ↦
    bne_iff_ne.2 fun he ↦ h (he ▸ List.mem_reverse.1 hc)
  rw [splitLastBracket?, List.reverse_append, List.reverse_cons, List.append_assoc,
    List.dropWhile_append_of_pos hne, List.takeWhile_append_of_pos hne]
  simp

theorem stripStart?_append (start cs : List Char) : stripStart? start (start ++ cs) = some cs := by
  induction start with
  | nil => rfl
  | cons s start ih => rw [List.cons_append, stripStart?, if_pos rfl, ih]

theorem resourceBase?_buffer (w : Bool) :
    resourceBase? (accessMark w ++ "NDBuffer").toList = some (.buffer w) := by
  cases w <;> rfl

theorem resourceBase?_texture {n : Nat} (h : n ≤ maxCount) (w : Bool) :
    resourceBase? (accessMark w ++ "Texture" ++ toString n ++ "D").toList =
      some (.texture n w) := by
  have hrest : (stripStart? "Texture".toList
      ("Texture".toList ++ ((toString n).toList ++ ['D']))).bind (fun rest ↦
        if rest.getLast? = some 'D' then do
          return ResourceBase.texture (← readCount? rest.dropLast) w
        else none) = some (.texture n w) := by
    rw [stripStart?_append, Option.bind_some, if_pos (by simp), List.dropLast_concat,
      readCount?_toString h]
    rfl
  cases w <;> simp only [String.toList_append, List.append_assoc] <;> exact hrest

/-! ### Names of known types -/

theorem Proper.isWord_of_struct {fs : List (String × KernelType)} {d : Bool} (hp : layout.Proper)
    (h : layout.types.find? (·.1 == name) = some (name, .struct name fs d)) : IsWord name := by
  refine hp.isWord name (List.mem_append_left _ ?_)
  exact List.mem_map.2 ⟨_, List.mem_of_find?_eq_some h, rfl⟩

theorem Proper.isWord_of_interface (hp : layout.Proper) (h : name ∈ layout.interfaces) :
    IsWord name :=
  hp.isWord name (List.mem_append_right _ h)

theorem toList_name_array (e : KernelType) (n : Nat) :
    (array e n).name.toList = e.name.toList ++ '[' :: (toString n).toList ++ [']'] := by
  simp [KernelType.name, String.toList_append]

theorem toList_name_buffer (e : KernelType) (n : Nat) (w : Bool) :
    (buffer e n w).name.toList = (accessMark w ++ "NDBuffer").toList ++
      '<' :: (e.name.toList ++ ',' :: (toString n).toList) ++ ['>'] := by
  simp [KernelType.name, String.toList_append]

theorem toList_name_texture (e : KernelType) (n : Nat) (w : Bool) :
    (texture e n w).name.toList = (accessMark w ++ "Texture" ++ toString n ++ "D").toList ++
      '<' :: e.name.toList ++ ['>'] := by
  simp [KernelType.name, String.toList_append]

theorem isWord_textureBase (n : Nat) (w : Bool) :
    IsWord (accessMark w ++ "Texture" ++ toString n ++ "D") := by
  have hmark : IsWord (accessMark w ++ "Texture") := by cases w <;> decide
  exact (hmark.append (isWord_toString n)).append (by decide)

theorem isWord_bufferBase (w : Bool) : IsWord (accessMark w ++ "NDBuffer") := by
  cases w <;> decide

/-- Names have no blanks, so nothing is lost when a reader drops them. -/
theorem Proper.not_isBlank_of_mem_name (hp : layout.Proper) (h : layout.Knows t) :
    ∀ c ∈ t.name.toList, isBlank c = false := by
  have hword : ∀ {s : String}, IsWord s → ∀ c ∈ s.toList, isBlank c = false :=
    fun hs c hc ↦ (hs c hc).1
  have hbase : ∀ {s : String} {body : List Char}, IsWord s → (∀ c ∈ body, isBlank c = false) →
      ∀ c ∈ s.toList ++ '<' :: body ++ ['>'], isBlank c = false := by
    intro s body hs hbody c hc
    simp only [List.append_assoc, List.cons_append, List.mem_append, List.mem_cons,
      List.not_mem_nil, or_false] at hc
    rcases hc with hc | rfl | hc | rfl
    exacts [hword hs c hc, by decide, hbody c hc, by decide]
  induction h with
  | numeric ht => exact hword (isWord_name_of_mem_numerics ht)
  | struct h => exact hword (hp.isWord_of_struct h)
  | interface h => exact hword (hp.isWord_of_interface h)
  | @array e n he hn ih =>
    rw [toList_name_array]
    intro c hc
    simp only [List.append_assoc, List.cons_append, List.mem_append, List.mem_cons,
      List.not_mem_nil, or_false] at hc
    rcases hc with hc | rfl | hc | rfl
    exacts [ih c hc, by decide, hword (isWord_toString n) c hc, by decide]
  | @buffer e n w he hn ih =>
    rw [toList_name_buffer]
    refine hbase (isWord_bufferBase w) fun c hc ↦ ?_
    rw [List.mem_append, List.mem_cons] at hc
    rcases hc with hc | rfl | hc
    exacts [ih c hc, by decide, hword (isWord_toString n) c hc]
  | @texture e n w he hn ih =>
    rw [toList_name_texture]
    exact hbase (isWord_textureBase n w) ih

/-- The marks of a name stay its own wherever the name stands. -/
theorem Proper.whole_name (hp : layout.Proper) (h : layout.Knows t) : Whole t.name.toList := by
  induction h with
  | numeric ht => exact (isWord_name_of_mem_numerics ht).whole
  | struct h => exact (hp.isWord_of_struct h).whole
  | interface h => exact (hp.isWord_of_interface h).whole
  | @array e n he hn ih =>
    have hopen : Whole ['['] := whole_of_plain (by simp [Plain])
    have hclose : Whole [']'] := whole_of_plain (by simp [Plain])
    rw [toList_name_array, ← List.singleton_append]
    exact (ih.append (hopen.append (isWord_toString n).whole)).append hclose
  | @buffer e n w he hn ih =>
    rw [toList_name_buffer, List.append_assoc]
    exact (isWord_bufferBase w).whole.append (ih.bracketed_pair (isWord_toString n).whole)
  | @texture e n w he hn ih =>
    rw [toList_name_texture, List.append_assoc]
    exact (isWord_textureBase n w).whole.append ih.bracketed

/-! ## Reading -/

theorem read?_of_registered? {text : List Char}
    (h : layout.registered? (String.ofList (trim text)) = some t) : layout.read? text = some t := by
  rw [read?, h]

section Rules

variable {text : List Char} {e : KernelType} {n : Nat} {w : Bool}
  (hreg : layout.registered? (String.ofList (trim text)) = none)

include hreg

theorem read?_array {element size : List Char} (hlast : (trim text).getLast? = some ']')
    (hsplit : splitLastBracket? (trim text).dropLast = some (element, size))
    (he : layout.read? element = some e) (hn : readCount? (trim size) = some n) :
    layout.read? text = some (.array e n) := by
  rw [read?, hreg]
  simp only [hlast, if_true]
  split <;> simp_all

theorem read?_numeric (hlast : (trim text).getLast? ≠ some ']')
    (hgen : generic? (trim text) = none) : layout.read? text = numeric? (trim text) := by
  rw [read?, hreg]
  simp only [hlast, if_false]
  split <;> simp_all

theorem read?_buffer {base element dims : List Char} (hlast : (trim text).getLast? ≠ some ']')
    (hgen : generic? (trim text) = some (base, [element, dims]))
    (hbase : resourceBase? base = some (.buffer w)) (he : layout.read? element = some e)
    (hn : readCount? (trim dims) = some n) : layout.read? text = some (.buffer e n w) := by
  rw [read?, hreg]
  simp only [hlast, if_false]
  split
  · simp_all
  · next b args hgen' =>
    obtain ⟨rfl, rfl⟩ : b = base ∧ args = [element, dims] := by simpa [hgen'] using hgen
    simp [hbase, he, hn]

theorem read?_texture {base element : List Char} (hlast : (trim text).getLast? ≠ some ']')
    (hgen : generic? (trim text) = some (base, [element]))
    (hbase : resourceBase? base = some (.texture n w)) (he : layout.read? element = some e) :
    layout.read? text = some (.texture e n w) := by
  rw [read?, hreg]
  simp only [hlast, if_false]
  split
  · simp_all
  · next b args hgen' =>
    obtain ⟨rfl, rfl⟩ : b = base ∧ args = [element] := by simpa [hgen'] using hgen
    simp [hbase, he]

end Rules

theorem le_of_resourceBase? {base : List Char} {n : Nat} {w : Bool}
    (h : resourceBase? base = some (.texture n w)) : n ≤ maxCount := by
  simp only [resourceBase?] at h
  split_ifs at h
  · cases h
  · obtain ⟨rest, -, h⟩ := Option.bind_eq_some_iff.1 h
    split_ifs at h
    obtain ⟨m, hm, h⟩ := Option.bind_eq_some_iff.1 h
    cases h
    exact le_of_readCount? hm

/-- What a proper layout reads is one of its types. -/
theorem Proper.knows_of_read? {text : List Char} (hp : layout.Proper)
    (h : layout.read? text = some t) : layout.Knows t := by
  fun_induction layout.read? text generalizing t
  case case1 hreg =>
    cases h
    exact hp.knows_of_registered? hreg
  case case3 ih =>
    obtain ⟨n, hn, h⟩ := Option.bind_eq_some_iff.1 h
    obtain ⟨e, he, h⟩ := Option.bind_eq_some_iff.1 h
    cases h
    exact .array (ih he) (le_of_readCount? hn)
  case case4 => exact .numeric (mem_numerics_of_numeric? h)
  case case5 ih =>
    obtain ⟨e, he, h⟩ := Option.bind_eq_some_iff.1 h
    obtain ⟨n, hn, h⟩ := Option.bind_eq_some_iff.1 h
    cases h
    exact .buffer (ih he) (le_of_readCount? hn)
  case case6 hbase _ ih =>
    obtain ⟨e, he, h⟩ := Option.bind_eq_some_iff.1 h
    cases h
    exact .texture (ih he) (le_of_resourceBase? hbase)
  case case2 | case7 => cases h

theorem Proper.trim_name (hp : layout.Proper) (h : layout.Knows t) :
    trim t.name.toList = t.name.toList :=
  trim_eq_self (hp.not_isBlank_of_mem_name h)

/-- A name with a mark is not registered. -/
theorem Proper.registered?_composite (hp : layout.Proper) (h : layout.Knows t) {c : Char}
    (hc : c ∈ t.name.toList) (hmark : ¬ IsWordChar c) :
    layout.registered? (String.ofList (trim t.name.toList)) = none := by
  rw [hp.trim_name h, String.ofList_toList]
  exact hp.registered?_eq_none fun hword ↦ hmark (hword c hc)

/-- **Names are read back**: a type of a proper layout is read from its name. -/
theorem Proper.read?_name (hp : layout.Proper) (h : layout.Knows t) :
    layout.read? t.name.toList = some t := by
  have hdigits : ∀ n, trim (toString n).toList = (toString n).toList := fun n ↦
    trim_eq_self fun c hc ↦ (isWord_toString n c hc).1
  have hcount : ∀ {n}, n ≤ maxCount → readCount? (trim (toString n).toList) = some n := fun hn ↦ by
    rw [hdigits, readCount?_toString hn]
  have htrim := hp.trim_name h
  induction h with
  | @numeric t ht =>
    have hword := isWord_name_of_mem_numerics ht
    have hno : ∀ {c}, ¬ IsWordChar c → c ∉ t.name.toList := fun hc hmem ↦ hc (hword _ hmem)
    rw [read?_numeric, htrim, numeric?_name ht]
    · rw [htrim, String.ofList_toList, hp.registered?_numeric ht]
    · rw [htrim]
      exact fun hlast ↦ hno (by decide) (List.mem_of_getLast? hlast)
    · rw [htrim, generic?_eq_none (hno (by decide))]
  | struct h =>
    refine read?_of_registered? ?_
    rw [htrim, String.ofList_toList, KernelType.name, registered?, h]
  | interface h =>
    refine read?_of_registered? ?_
    rw [htrim, String.ofList_toList, KernelType.name, hp.registered?_interface h]
  | @array e n he hn ih =>
    have hreg := hp.registered?_composite (he.array hn) (c := '[') (by simp [toList_name_array])
      (by decide)
    have hno : '[' ∉ (toString n).toList := fun hc ↦ absurd (isWord_toString n _ hc) (by decide)
    refine read?_array hreg ?_ ?_ (ih (hp.trim_name he)) (hcount hn)
    · rw [htrim, toList_name_array, List.getLast?_concat]
    · rw [htrim, toList_name_array, List.dropLast_concat, splitLastBracket?_append hno]
  | @buffer e n w he hn ih =>
    have hreg := hp.registered?_composite (he.buffer hn (w := w)) (c := '<')
      (by simp [toList_name_buffer]) (by decide)
    have hbase : '<' ∉ (accessMark w ++ "NDBuffer").toList := fun hc ↦
      absurd (isWord_bufferBase w _ hc) (by decide)
    refine read?_buffer hreg ?_ ?_ (resourceBase?_buffer w) (ih (hp.trim_name he)) (hcount hn)
    · rw [htrim, toList_name_buffer, List.getLast?_concat]
      decide
    · rw [htrim, toList_name_buffer, generic?_eq hbase
        ((hp.whole_name he).pieces?_pair (isWord_toString n).whole)]
      simp only [List.map_cons, List.map_nil, hp.trim_name he, hdigits]
  | @texture e n w he hn ih =>
    have hreg := hp.registered?_composite (he.texture hn (w := w)) (c := '<')
      (by simp [toList_name_texture]) (by decide)
    have hbase : '<' ∉ (accessMark w ++ "Texture" ++ toString n ++ "D").toList := fun hc ↦
      absurd (isWord_textureBase n w _ hc) (by decide)
    refine read?_texture hreg ?_ ?_ (resourceBase?_texture hn w) (ih (hp.trim_name he))
    · rw [htrim, toList_name_texture, List.getLast?_concat]
      decide
    · rw [htrim, toList_name_texture, generic?_eq hbase (hp.whole_name he).pieces?_eq]
      simp only [List.map_cons, List.map_nil, hp.trim_name he]

/-- **Type names round-trip**: a proper layout finds each of its types under the type's own name,
and whatever it finds under any name it finds again under the name of what it found. -/
theorem find?_name (layout : Layout) (hp : layout.Proper) :
    (∀ t, layout.Knows t → layout.find? t.name = some t) ∧
      ∀ s t, layout.find? s = some t → layout.find? t.name = some t :=
  ⟨fun _ ht ↦ hp.read?_name ht, fun _ _ h ↦ hp.read?_name (hp.knows_of_read? h)⟩

/-- A layout with a struct: a type that nests every kind of composite name, commas and brackets
inside of outer ones, and a name with blanks around it. -/
theorem find?_name_ray :
    let ray : KernelType := .struct "Ray" [("origin", .vector .float 3)] true
    let layout := Layout.standard.register ray
    let nested : KernelType :=
      .buffer (.array (.texture (.buffer (.array ray 4) 2 false) 2 false) 3) 1 true
    layout.Proper ∧ layout.find? nested.name = some nested ∧
      layout.find? " Ray " = some ray ∧ layout.find? ray.name = some ray := by
  intro ray layout nested
  have hproper : layout.Proper := {
    isStruct := by decide
    isWord := by decide
    distinct := by decide
    not_numeric := by decide +kernel }
  have hray : layout.Knows ray := .struct (by decide)
  have hbuffer : layout.Knows (.buffer (.array ray 4) 2 false) :=
    .buffer (.array hray (by decide)) (by decide)
  have hnested : layout.Knows nested :=
    .buffer (.array (.texture hbuffer (by decide)) (by decide)) (by decide)
  have hblank : layout.find? " Ray " = some ray := read?_of_registered? (by decide)
  exact ⟨hproper, (find?_name layout hproper).1 nested hnested, hblank,
    (find?_name layout hproper).2 " Ray " ray hblank⟩

end Layout

end KernelCall
