import KernelCall.KernelType.Basic

/-!
# Types without their outermost dimensions

Stripping dimensions takes extents off the front of the shape, and takes as many as are asked for.

An array hands the count on to its elements, while vectors and matrices name what is left for each
count by itself. That the two agree where an array meets its elements is one fact, `reduce?_succ`:
whatever the type, the outermost dimension goes first and the others go from what is left. With it,
what one strip does carries over to any number of them.
-/

namespace KernelCall.KernelType

variable {t u : KernelType} {count : Nat}

/-- Stripping dimensions takes as many of them as are asked for. -/
theorem rank_of_reduce? (h : t.reduce? count = some u) : count + u.rank = t.rank := by
  fun_induction reduce? t count with
  | case1 t =>
    cases h
    exact Nat.zero_add _
  | case2 | case3 | case4 =>
    cases h
    rfl
  | case5 e size count ih =>
    have hrest : count + u.rank = e.rank := ih h
    have hrank : (array e size).rank = e.rank + 1 := rfl
    omega
  | case6 => cases h

theorem shape_of_reduce? (h : t.reduce? count = some u) : u.shape = t.shape.drop count := by
  fun_induction reduce? t count with
  | case1 t =>
    cases h
    rfl
  | case2 | case3 | case4 =>
    cases h
    rfl
  | case5 e size count ih => exact ih h
  | case6 => cases h

theorem reduce?_eq_self_iff : t.reduce? count = some t ↔ count = 0 := by
  constructor
  · intro h
    have hrank := rank_of_reduce? h
    omega
  · rintro rfl
    exact reduce?_zero t

/-! ## One dimension after the other -/

/-- The outermost dimension is stripped first, the others from what is left. -/
theorem reduce?_succ (t : KernelType) (count : Nat) :
    t.reduce? (count + 1) = (t.reduce? 1).bind (·.reduce? count) := by
  cases t with
  | array e size =>
    have hone : (array e size).reduce? 1 = some e := reduce?_zero e
    rw [hone, Option.bind_some, reduce?]
  | matrix s rows cols =>
    -- a vector is left, which has one more dimension
    rcases count with _ | _ | count <;> simp [reduce?]
  | vector s size => cases count <;> simp [reduce?]
  | scalar | struct | buffer | texture | interface => simp [reduce?]

theorem exists_reduce?_one (h : 0 < t.rank) : ∃ u, t.reduce? 1 = some u := by
  cases t with
  | vector | matrix => exact ⟨_, rfl⟩
  | array e size => exact ⟨e, reduce?_zero e⟩
  | scalar | struct | buffer | texture | interface => exact absurd h (Nat.lt_irrefl 0)

theorem exists_reduce? (h : count ≤ t.rank) : ∃ u, t.reduce? count = some u := by
  induction count generalizing t with
  | zero => exact ⟨t, reduce?_zero t⟩
  | succ count ih =>
    obtain ⟨next, hnext⟩ := exists_reduce?_one (Nat.zero_lt_of_lt h)
    have hrank := rank_of_reduce? hnext
    rw [reduce?_succ, hnext, Option.bind_some]
    exact ih (by omega)

/-- As many dimensions can be stripped as the type has. -/
theorem isSome_reduce?_iff : (t.reduce? count).isSome ↔ count ≤ t.rank := by
  rw [Option.isSome_iff_exists]
  constructor
  · rintro ⟨u, hu⟩
    exact Nat.le.intro (rank_of_reduce? hu)
  · exact exists_reduce?

/-- Some dimensions and then more of them are stripped like all of them at once. -/
theorem reduce?_add (t : KernelType) (a b : Nat) :
    t.reduce? (a + b) = (t.reduce? a).bind (·.reduce? b) := by
  induction a generalizing t with
  | zero => rw [Nat.zero_add, reduce?_zero, Option.bind_some]
  | succ a ih =>
    calc t.reduce? (a + 1 + b)
      _ = (t.reduce? 1).bind (·.reduce? (a + b)) := by rw [Nat.add_right_comm, reduce?_succ]
      _ = (t.reduce? 1).bind fun u ↦ (u.reduce? a).bind (·.reduce? b) := by simp only [ih]
      _ = (t.reduce? (a + 1)).bind (·.reduce? b) := by rw [reduce?_succ t a, Option.bind_assoc]

/-- **Stripping dimensions acts on shapes.** It is defined up to the rank of the type, what is left
has the extents behind those that are stripped, and counts that follow one another add up: stripping
twice is defined exactly if stripping the sum is, and leaves the same type. -/
theorem reduce?_action (t : KernelType) (a b : Nat) :
    ((t.reduce? a).isSome ↔ a ≤ t.shape.length) ∧
      (∀ u, t.reduce? a = some u → u.shape = t.shape.drop a) ∧
        (t.reduce? a).bind (·.reduce? b) = t.reduce? (a + b) :=
  ⟨isSome_reduce?_iff, fun _ h ↦ shape_of_reduce? h, (reduce?_add t a b).symm⟩

/-- Arrays of arrays of matrices: the third strip goes beyond the arrays, the fifth is one too
many. -/
theorem reduce?_action_tiles :
    let tiles : KernelType := .array (.array (.matrix .float 3 4) 2) 5
    tiles.reduce? 3 = some (.vector .float 4) ∧
      (KernelType.vector .float 4).shape = tiles.shape.drop 3 ∧
        (tiles.reduce? 3).bind (·.reduce? 1) = some (.scalar .float) ∧
          (tiles.reduce? 3).bind (·.reduce? 2) = none := by
  intro tiles
  have hthree : tiles.reduce? 3 = some (.vector .float 4) := by decide
  refine ⟨hthree, (reduce?_action tiles 3 1).2.1 _ hthree, ?_, ?_⟩
  · rw [(reduce?_action tiles 3 1).2.2]
    decide
  · rw [(reduce?_action tiles 3 2).2.2]
    decide

/-! ## Types without dimensions -/

theorem shape_of_isScalar (h : t.isScalar) : t.shape = [] := by
  cases t with
  | scalar s => rfl
  | _ => cases h

theorem shape_of_isResource (h : t.isResource) : t.shape = [] := by
  cases t with
  | buffer | texture => rfl
  | _ => cases h

end KernelCall.KernelType
