import KernelCall.KernelType.Generic
import Mathlib.Data.List.Basic

/-!
# How generic names are cut

The reader of type names looks at characters alone: it counts opening and closing brackets and
cuts at the commas outside of them. What keeps it from taking the brackets and commas of an inner
name for the outer ones is one property of a text, `Whole`: wherever it stands, and however many
brackets are open in front of it, it stays within one piece. Whole texts are closed under writing
one after the other and under the ways in which a resource name is put around its arguments, so
names of any nesting are whole.
-/

namespace KernelCall.KernelType

variable {cs ds : List Char}

/-! ## Whole texts -/

/-- A character that neither opens a bracket, closes one, nor separates arguments. -/
def Plain (c : Char) : Prop := c ≠ '<' ∧ c ≠ '>' ∧ c ≠ ','

/-- The text stays within one piece wherever it stands: it closes the brackets that it opens and
no others, and has its commas inside of them. -/
def Whole (cs : List Char) : Prop :=
  ∀ depth rest, pieces? depth (cs ++ rest) = (pieces? depth rest).map fun ps ↦ cs.foldr consHead ps

theorem pieces?_cons_of_plain {c : Char} (h : Plain c) (depth : Nat) (rest : List Char) :
    pieces? depth (c :: rest) = (pieces? depth rest).map (consHead c) := by
  obtain ⟨hopen, hclose, hcomma⟩ := h
  rw [pieces?]
  · exact hopen
  · rintro - rfl; exact hclose rfl
  · rintro d - rfl; exact hclose rfl
  · rintro - rfl; exact hcomma rfl

theorem whole_nil : Whole [] := fun _ _ ↦ by simp

theorem Whole.append (hc : Whole cs) (hd : Whole ds) : Whole (cs ++ ds) := by
  intro depth rest
  rw [List.append_assoc, hc, hd, Option.map_map]
  simp only [List.foldr_append, Function.comp_def]

theorem whole_of_plain (h : ∀ c ∈ cs, Plain c) : Whole cs := by
  induction cs with
  | nil => exact whole_nil
  | cons c cs ih =>
    rw [List.forall_mem_cons] at h
    intro depth rest
    rw [List.cons_append, pieces?_cons_of_plain h.1, ih h.2, Option.map_map]
    rfl

theorem Whole.bracketed (h : Whole cs) : Whole ('<' :: cs ++ ['>']) := by
  intro depth rest
  simp only [List.cons_append, List.append_assoc, List.nil_append, pieces?, h (depth + 1),
    Option.map_map, List.foldr_cons, List.foldr_append, List.foldr_nil, Function.comp_def]

theorem Whole.bracketed_pair (hc : Whole cs) (hd : Whole ds) :
    Whole ('<' :: cs ++ ',' :: ds ++ ['>']) := by
  have hcomma : ∀ depth rest,
      pieces? (depth + 1) (',' :: rest) = (pieces? (depth + 1) rest).map (consHead ',') := by
    intro depth rest
    rw [pieces?] <;> simp
  intro depth rest
  simp only [List.cons_append, List.append_assoc, List.nil_append, pieces?, hc (depth + 1),
    hcomma, hd (depth + 1), Option.map_map, List.foldr_cons, List.foldr_append, List.foldr_nil,
    Function.comp_def]

/-! ## Cutting -/

theorem foldr_consHead (cs piece : List Char) (pieces : List (List Char)) :
    cs.foldr consHead (piece :: pieces) = (cs ++ piece) :: pieces := by
  induction cs with
  | nil => rfl
  | cons c cs ih => rw [List.foldr_cons, ih]; rfl

theorem Whole.pieces?_eq (h : Whole cs) : pieces? 0 cs = some [cs] := by
  have := h 0 []
  rw [List.append_nil] at this
  simp [this, pieces?, foldr_consHead]

theorem Whole.pieces?_pair (hc : Whole cs) (hd : Whole ds) :
    pieces? 0 (cs ++ ',' :: ds) = some [cs, ds] := by
  simp [hc 0, pieces?, hd.pieces?_eq, foldr_consHead]

/-- **A generic name is cut at its outer brackets**: the base is what stands in front of the first
opening bracket, and the arguments are what the text in between is cut into. -/
theorem generic?_eq {base body : List Char} {args : List (List Char)} (hbase : '<' ∉ base)
    (hbody : pieces? 0 body = some args) :
    generic? (base ++ '<' :: body ++ ['>']) = some (base, args.map Text.trim) := by
  have hne : ∀ c ∈ base, (c != '<') = true := fun c hc ↦ bne_iff_ne.2 fun he ↦ hbase (he ▸ hc)
  rw [List.append_assoc, generic?, List.dropWhile_append_of_pos hne, List.cons_append,
    List.dropWhile_cons_of_neg (by simp)]
  simp only [List.getLast?_append, List.getLast?_singleton, Option.some_or, if_true,
    List.dropLast_concat, hbody, Option.map_some]
  rw [List.takeWhile_append_of_pos hne, List.takeWhile_cons_of_neg (by simp), List.append_nil]

theorem generic?_eq_none (h : '<' ∉ cs) : generic? cs = none := by
  have hnil : (cs ++ []).dropWhile (· != '<') = [] :=
    List.dropWhile_append_of_pos fun c hc ↦ bne_iff_ne.2 fun he ↦ h (he ▸ hc)
  rw [List.append_nil] at hnil
  rw [generic?, hnil]

end KernelCall.KernelType
