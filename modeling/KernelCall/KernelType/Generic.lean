import KernelCall.Text.Blank

/-!
# Generic type names

A generic type name is a base followed by arguments in angle brackets, as in
`NDBuffer<float[2],3>`. The base holds no opening bracket. Inside the brackets every closing
bracket has an opening one before it, and commas outside of inner brackets separate the
arguments, of which there is at least one.
-/

namespace KernelCall.KernelType

/-- Puts a character in front of the first piece. -/
def consHead (c : Char) : List (List Char) → List (List Char)
  | [] => [[c]]
  | piece :: pieces => (c :: piece) :: pieces

/-- Splits a text at the commas outside of brackets, `depth` brackets being open in front of it.
Refuses a text that closes a bracket it has not opened, or leaves one open. -/
def pieces? : (depth : Nat) → List Char → Option (List (List Char))
  | depth, [] => if depth = 0 then some [[]] else none
  | depth, '<' :: cs => (pieces? (depth + 1) cs).map (consHead '<')
  | 0, '>' :: _ => none
  | depth + 1, '>' :: cs => (pieces? depth cs).map (consHead '>')
  | 0, ',' :: cs => (pieces? 0 cs).map ([] :: ·)
  | depth, c :: cs => (pieces? depth cs).map (consHead c)

/-- Splits a generic type name into its base and its arguments without surrounding blanks. -/
def generic? (cs : List Char) : Option (List Char × List (List Char)) :=
  match cs.dropWhile (· != '<') with
  | [] => none
  | _ :: body =>
    if body.getLast? = some '>' then
      (pieces? 0 body.dropLast).map fun ps ↦ (cs.takeWhile (· != '<'), ps.map Text.trim)
    else none

/-! ## The parts are shorter than the whole -/

private theorem length_le_of_mem_consHead {c : Char} {ps : List (List Char)} {n : Nat}
    (h : ∀ p ∈ ps, p.length ≤ n) : ∀ p ∈ consHead c ps, p.length ≤ n + 1 := by
  cases ps with
  | nil => simp [consHead]
  | cons q qs =>
    intro p hp
    simp only [consHead, List.mem_cons] at hp
    rcases hp with rfl | hp
    · simpa using h q (by simp)
    · exact Nat.le_succ_of_le (h p (by simp [hp]))

theorem length_le_of_mem_pieces? {depth : Nat} {cs : List Char} {ps : List (List Char)}
    (h : pieces? depth cs = some ps) : ∀ p ∈ ps, p.length ≤ cs.length := by
  have step : ∀ {c : Char} {d : Nat} {cs : List Char} {ps : List (List Char)},
      (∀ {qs}, pieces? d cs = some qs → ∀ q ∈ qs, q.length ≤ cs.length) →
      (pieces? d cs).map (consHead c) = some ps → ∀ p ∈ ps, p.length ≤ cs.length + 1 := by
    intro c d cs ps ih h
    obtain ⟨qs, hqs, rfl⟩ := Option.map_eq_some_iff.1 h
    exact length_le_of_mem_consHead (ih hqs)
  fun_induction pieces? depth cs generalizing ps with
  | case1 =>
    cases h
    simp
  | case2 => simp at h
  | case3 depth cs ih => exact step ih h
  | case4 => simp at h
  | case5 cs depth ih => exact step ih h
  | case6 cs ih =>
    obtain ⟨qs, hqs, rfl⟩ := Option.map_eq_some_iff.1 h
    intro p hp
    rcases List.mem_cons.1 hp with rfl | hp
    · simp
    · exact Nat.le_succ_of_le (ih hqs p hp)
  | case7 _ _ _ _ _ _ _ ih => exact step ih h

theorem length_lt_of_mem_generic? {cs base : List Char} {args : List (List Char)}
    (h : generic? cs = some (base, args)) : ∀ a ∈ args, a.length < cs.length := by
  unfold generic? at h
  split at h
  · simp at h
  · next c body hbody =>
    split at h
    · obtain ⟨ps, hps, he⟩ := Option.map_eq_some_iff.1 h
      simp only [Prod.mk.injEq] at he
      obtain ⟨-, rfl⟩ := he
      intro a ha
      obtain ⟨p, hp, rfl⟩ := List.mem_map.1 ha
      have hle := length_le_of_mem_pieces? hps p hp
      have htrim := Text.length_trim_le p
      have hsuf := (List.dropWhile_suffix (· != '<') (l := cs)).length_le
      rw [hbody] at hsuf
      simp only [List.length_dropLast, List.length_cons] at hle hsuf
      omega
    · simp at h

end KernelCall.KernelType
