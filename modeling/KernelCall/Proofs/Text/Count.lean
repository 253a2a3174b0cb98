import KernelCall.Text.Blank
import KernelCall.Text.Count
import KernelCall.Proofs.Text.Token
import Mathlib.Tactic.IntervalCases

/-!
# Counts read back

A count is written in decimal and read again to the same number, unless it is too large for a
machine word. Counts are read after the blanks around them are dropped; their digits are none.
-/

namespace KernelCall.Text

theorem succCount_of_lt {n : Nat} (h : n < maxCount) : succCount n = n + 1 := by
  rw [maxCount, Nat.lt_sub_iff_add_lt] at h
  exact Nat.mod_eq_of_lt h

theorem trim_eq_self {cs : List Char} (h : ∀ c ∈ cs, isBlank c = false) : trim cs = cs := by
  have hdrop : ∀ ds : List Char, (∀ c ∈ ds, isBlank c = false) → ds.dropWhile isBlank = ds := by
    rintro (_ | ⟨d, ds⟩) hds
    · rfl
    · rw [List.dropWhile_cons_of_neg (by simp [hds d List.mem_cons_self])]
  rw [trim, trimLeft, hdrop cs h, trimRight, hdrop _ (by simpa using h), List.reverse_reverse]

/-! ## Digits -/

theorem readDigits_eq {cs : List Char} (h : ∀ c ∈ cs, c.isDigit) (n : Nat) :
    readDigits n cs = some (Nat.ofDigitChars 10 cs n) := by
  induction cs generalizing n with
  | nil => rfl
  | cons c cs ih =>
    rw [List.forall_mem_cons] at h
    rw [readDigits, if_pos h.1, ih h.2, Nat.ofDigitChars_cons]

theorem toList_toString_ne_nil (n : Nat) : (toString n).toList ≠ [] := by
  rw [Nat.toString_eq_repr, Nat.repr, String.toList_ofList]
  exact Nat.toDigits_ne_nil

theorem readDigits_toString (n : Nat) : readDigits 0 (toString n).toList = some n := by
  rw [readDigits_eq fun _ ↦ isDigit_of_mem_toString, Nat.toString_eq_repr, Nat.repr,
    String.toList_ofList, Nat.ofDigitChars_toDigits (by decide) (by decide)]

/-- **Counts read back**: what a count of one word is written as is read as the count. -/
theorem readCount?_toString {n : Nat} (h : n ≤ maxCount) :
    readCount? (toString n).toList = some n := by
  have hread := readDigits_toString n
  obtain ⟨c, cs, hcs⟩ := List.exists_cons_of_ne_nil (toList_toString_ne_nil n)
  have hplus : c ≠ '+' := by
    rintro rfl
    have hdigit : '+'.isDigit := isDigit_of_mem_toString (hcs ▸ List.mem_cons_self)
    exact absurd hdigit (by decide)
  rw [hcs] at hread ⊢
  simp [readCount?, hread, h, hplus]

theorem le_of_readCount? {cs : List Char} {n : Nat} (h : readCount? cs = some n) :
    n ≤ maxCount :=
  of_decide_eq_true (Option.filter_eq_some_iff.1 (Option.ite_none_left_eq_some.1 h).2).2

theorem isBlank_of_isDigit {c : Char} (h : c.isDigit) : isBlank c = false := by
  simp only [Char.isDigit, Bool.and_eq_true, decide_eq_true_eq] at h
  have hlow : 48 ≤ c.toNat := h.1
  have hhigh : c.toNat ≤ 57 := h.2
  rw [← Char.ofNat_toNat c]
  generalize c.toNat = n at hlow hhigh
  interval_cases n <;> decide

end KernelCall.Text
