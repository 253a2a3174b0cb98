import KernelCall.Mapping
import KernelCall.Proofs.Progress
import Mathlib.Data.List.Basic
import Std.Data.String.ToNat

/-!
# Tokens

A text that is put together from tokens can be taken apart again if it shows where each token ends:
at a character that no token has, or at a comma with a blank behind it, tokens being free of blanks.
Each lemma here has the form *what is read and what follows it are determined by both together*, so
that readings can be chained.
-/

namespace KernelCall.Text

/-- A token of characters with `P` ends in front of `r`. -/
def Halts (P : Char → Prop) (r : List Char) : Prop :=
  (∀ c ∈ r.head?, ¬ P c ∧ c ≠ ' ') ∨ [',', ' '] <+: r

variable {P : Char → Prop} {t u r s : List Char}

theorem halts_cons {c : Char} (h : ¬ P c) (hc : c ≠ ' ') : Halts P (c :: r) :=
  Or.inl (by simpa using ⟨h, hc⟩)

theorem Halts.mono {Q : Char → Prop} (h : Halts P r) (hQ : ∀ c, Q c → P c) : Halts Q r :=
  h.imp_left fun hr c hc ↦ ⟨fun hq ↦ (hr c hc).1 (hQ c hq), (hr c hc).2⟩

private theorem eq_nil_of_halts (hP : ¬ P ' ') (hu : ∀ c ∈ u, P c) (hs : Halts P s)
    (hr : Halts P (u ++ s)) : u = [] := by
  by_contra hne
  obtain ⟨c, u, rfl⟩ := List.exists_cons_of_ne_nil hne
  rcases hr with hr | ⟨q, hq⟩
  · exact (hr c rfl).1 (hu c List.mem_cons_self)
  -- a comma may belong to the token, but the blank behind it neither does nor follows the token
  simp only [List.cons_append, List.nil_append, List.cons.injEq] at hq
  rcases u with _ | ⟨d, u⟩
  · rw [List.nil_append] at hq
    rcases hs with hs | ⟨q', rfl⟩
    · exact (hs ' ' (by rw [← hq.2]; rfl)).2 rfl
    · simp at hq
  · simp only [List.cons_append, List.cons.injEq] at hq
    exact hP (hq.2.1 ▸ hu d (by simp))

/-- **Tokens can be read**: a token and what follows it are determined by both together. -/
theorem token_inj (hP : ¬ P ' ') (ht : ∀ c ∈ t, P c) (hu : ∀ c ∈ u, P c) (hr : Halts P r)
    (hs : Halts P s) (h : t ++ r = u ++ s) : t = u ∧ r = s := by
  induction t generalizing u with
  | nil =>
    rw [List.nil_append] at h
    have hnil : u = [] := eq_nil_of_halts hP hu hs (h ▸ hr)
    exact ⟨hnil.symm, by rw [h, hnil, List.nil_append]⟩
  | cons c t ih =>
    rcases u with _ | ⟨d, u⟩
    · rw [List.nil_append] at h
      exact absurd (eq_nil_of_halts hP ht hr (h ▸ hs)) (List.cons_ne_nil c t)
    · rw [List.cons_append, List.cons_append, List.cons.injEq] at h
      rw [List.forall_mem_cons] at ht hu
      obtain ⟨rfl, hrs⟩ := ih ht.2 hu.2 h.2
      exact ⟨by rw [h.1], hrs⟩

/-! ## Lists of tokens -/

/-- A list with separators is its first member, and each further one with a separator in front. -/
theorem intercalate_cons {α : Type} (sep x : List α) (xs : List (List α)) :
    sep.intercalate (x :: xs) = x ++ xs.flatMap (sep ++ ·) := by
  induction xs generalizing x with
  | nil => simp
  | cons y ys ih => simp only [List.intercalate_cons_cons, ih, List.flatMap_cons, List.append_assoc]

section Lists

variable {α β : Type} {R : α → β → Prop} {Q : List Char → Prop} {f : α → List Char}
  {g : β → List Char} {a : Char} {sep : List Char} {close : Char}

/-- What follows a member: separated members, then the closing character. -/
private def further (f : α → List Char) (sep : List Char) (close : Char) (xs : List α)
    (r : List Char) : List Char :=
  xs.flatMap (fun x ↦ sep ++ f x) ++ close :: r

private theorem further_of_sep (hsep : ∀ r, Q (a :: sep ++ r)) (hclose : ∀ r, Q (close :: r))
    (xs : List α) (r : List Char) : Q (further f (a :: sep) close xs r) := by
  rcases xs with _ | ⟨x, xs⟩
  · exact hclose r
  · rw [further, List.flatMap_cons, List.append_assoc, List.append_assoc]
    exact hsep _

private theorem forall₂_of_further (hsep : ∀ r, Q (a :: sep ++ r)) (hclose : ∀ r, Q (close :: r))
    (hne : a ≠ close) {xs : List α} {ys : List β}
    (hread : ∀ x ∈ xs, ∀ y ∈ ys, ∀ r s, Q r → Q s → f x ++ r = g y ++ s → R x y ∧ r = s)
    (h : further f (a :: sep) close xs r = further g (a :: sep) close ys s) :
    List.Forall₂ R xs ys ∧ r = s := by
  induction xs generalizing ys with
  | nil =>
    rcases ys with _ | ⟨y, ys⟩
    · exact ⟨.nil, (List.cons.inj h).2⟩
    · exact absurd (List.cons.inj h).1.symm hne
  | cons x xs ih =>
    rcases ys with _ | ⟨y, ys⟩
    · exact absurd (List.cons.inj h).1 hne
    · simp only [further, List.flatMap_cons, List.append_assoc] at h
      obtain ⟨hxy, h⟩ := hread x List.mem_cons_self y List.mem_cons_self _ _
        (further_of_sep hsep hclose xs r) (further_of_sep hsep hclose ys s)
        (List.append_cancel_left h)
      obtain ⟨hall, hrs⟩ := ih (fun x hx y hy ↦ hread x (List.mem_cons_of_mem _ hx) y
        (List.mem_cons_of_mem _ hy)) h
      exact ⟨.cons hxy hall, hrs⟩

/-- **Lists can be read** if their members can: a list written with separators and closed by a
character is determined by its text. -/
theorem forall₂_of_intercalate (hsep : ∀ r, Q (a :: sep ++ r)) (hclose : ∀ r, Q (close :: r))
    (hne : a ≠ close) {xs : List α} {ys : List β} (hf : ∀ x ∈ xs, ∀ r s, f x ++ r ≠ close :: s)
    (hg : ∀ y ∈ ys, ∀ r s, g y ++ r ≠ close :: s)
    (hread : ∀ x ∈ xs, ∀ y ∈ ys, ∀ r s, Q r → Q s → f x ++ r = g y ++ s → R x y ∧ r = s)
    (h : (a :: sep).intercalate (xs.map f) ++ close :: r =
      (a :: sep).intercalate (ys.map g) ++ close :: s) : List.Forall₂ R xs ys ∧ r = s := by
  rcases xs with _ | ⟨x, xs⟩ <;> rcases ys with _ | ⟨y, ys⟩
  · exact ⟨.nil, (List.cons.inj h).2⟩
  · rw [List.map_cons, intercalate_cons, List.append_assoc] at h
    exact absurd h.symm (hg y List.mem_cons_self _ _)
  · rw [List.map_cons, intercalate_cons, List.append_assoc] at h
    exact absurd h (hf x List.mem_cons_self _ _)
  · simp only [List.map_cons, intercalate_cons, List.append_assoc, List.flatMap_map] at h
    obtain ⟨hxy, h⟩ := hread x List.mem_cons_self y List.mem_cons_self _ _
      (further_of_sep hsep hclose xs r) (further_of_sep hsep hclose ys s) h
    obtain ⟨hall, hrs⟩ := forall₂_of_further hsep hclose hne (fun x hx y hy ↦
      hread x (List.mem_cons_of_mem _ hx) y (List.mem_cons_of_mem _ hy)) h
    exact ⟨.cons hxy hall, hrs⟩

end Lists

/-! ## Numbers -/

theorem isDigit_of_mem_toString {n : Nat} {c : Char} (h : c ∈ (toString n).toList) : c.isDigit := by
  rw [Nat.toString_eq_repr, Nat.repr, String.toList_ofList] at h
  exact Nat.isDigit_of_mem_toDigits (by decide) (by decide) h

theorem toString_inj {m n : Nat} (hr : Halts (·.isDigit) r) (hs : Halts (·.isDigit) s)
    (h : (toString m).toList ++ r = (toString n).toList ++ s) : m = n ∧ r = s := by
  obtain ⟨h, hrs⟩ := token_inj (by decide) (fun _ ↦ isDigit_of_mem_toString)
    (fun _ ↦ isDigit_of_mem_toString) hr hs h
  exact ⟨Nat.repr_injective (String.toList_inj.mp h), hrs⟩

end KernelCall.Text
