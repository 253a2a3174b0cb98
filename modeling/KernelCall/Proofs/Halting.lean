import KernelCall.Proofs.Progress

/-!
# Passes that halt at a member

A pass over something that has members in order treats them one by one. It halts at the first member
that is refused: the members before it have been treated, it and those after it are as they were.
This pins down the result and the state that is left, whichever way the members are nested, for such
passes can be put one after the other (`Halting.andThen`), and so can lists of them.
-/

namespace KernelCall

namespace Progress

variable {σ τ υ ν : Type} {refusal? : ν → Option BindError} {treat : ν → ν}

/-- The pass over `s` treats its members in order, and halts at the first that is refused. -/
inductive Halting (members : σ → List ν) (refusal? : ν → Option BindError) (treat : ν → ν) (s : σ) :
    Progress σ → Prop where
  /-- No member is refused, and all of them are treated. -/
  | through {s' : σ} (accepted : ∀ x ∈ members s, refusal? x = none)
    (left : members s' = (members s).map treat) : Halting members refusal? treat s (done s')
  /-- A member is refused, and those before it are treated. -/
  | halted {s' : σ} {before after : List ν} {x : ν} {e : BindError}
    (split : members s = before ++ x :: after) (accepted : ∀ y ∈ before, refusal? y = none)
    (refused : refusal? x = some e) (left : members s' = before.map treat ++ x :: after) :
    Halting members refusal? treat s (stopped s' e)

/-- Passes over two parts, one after the other: the second part is left alone if the first halts. -/
theorem Halting.andThen {ms : σ → List ν} {mt : τ → List ν} {mu : υ → List ν} {pair : σ → τ → υ}
    {s : σ} {t : τ} {p : Progress σ} {q : Progress τ} (hp : Halting ms refusal? treat s p)
    (hq : Halting mt refusal? treat t q) (hpair : ∀ a b, mu (pair a b) = ms a ++ mt b) :
    Halting mu refusal? treat (pair s t) (p.andThen (pair · t) fun a ↦ q.map (pair a)) := by
  cases hp with
  | @through s' haccepted hleft =>
    cases hq with
    | @through t' haccepted' hleft' =>
      apply Halting.through
      · rw [hpair]
        exact List.forall_mem_append.mpr ⟨haccepted, haccepted'⟩
      · rw [hpair, hpair, state_done, state_done, hleft, hleft', List.map_append]
    | @halted t' before after x e hsplit haccepted' hrefused hleft' =>
      -- the whole first part stands before the member that is refused
      have hwhole : mu (pair s t) = (ms s ++ before) ++ x :: after := by
        rw [hpair, hsplit, List.append_assoc]
      refine .halted hwhole (List.forall_mem_append.mpr ⟨haccepted, haccepted'⟩) hrefused ?_
      rw [hpair, state_done, state_stopped, hleft, hleft', List.map_append, List.append_assoc]
  | @halted s' before after x e hsplit haccepted hrefused hleft =>
    have hwhole : mu (pair s t) = before ++ x :: (after ++ mt t) := by
      rw [hpair, hsplit, List.append_assoc, List.cons_append]
    refine .halted hwhole haccepted hrefused ?_
    rw [hpair, state_stopped, hleft, List.append_assoc, List.cons_append]

theorem Halting.map {ms : σ → List ν} {mt : τ → List ν} {g : σ → τ} {s : σ} {p : Progress σ}
    (h : Halting ms refusal? treat s p) (hg : ∀ a, mt (g a) = ms a) :
    Halting mt refusal? treat (g s) (p.map g) := by
  cases h with
  | @through s' haccepted hleft =>
    have hleft' : mt (g s') = (mt (g s)).map treat := by rw [hg, hg, hleft]
    exact .through (by rwa [hg]) hleft'
  | @halted s' before after x e hsplit haccepted hrefused hleft =>
    have hsplit' : mt (g s) = before ++ x :: after := (hg s).trans hsplit
    have hleft' : mt (g s') = before.map treat ++ x :: after := (hg s').trans hleft
    exact .halted hsplit' haccepted hrefused hleft'

/-- A pass over a list halts at the first member of the first member in which there is one. -/
theorem halting_traverse {ms : σ → List ν} {f : σ → Progress σ} {xs : List σ}
    (h : ∀ x ∈ xs, Halting ms refusal? treat x (f x)) :
    Halting (List.flatMap ms) refusal? treat xs (traverse f xs) := by
  induction xs with
  | nil =>
    apply Halting.through
    · intro x hx
      cases hx
    · rfl
  | cons x xs ih =>
    rw [List.forall_mem_cons] at h
    have hcons : ∀ (y : σ) (ys : List σ), (y :: ys).flatMap ms = ms y ++ ys.flatMap ms := fun y ys ↦
      List.flatMap_cons
    exact h.1.andThen (ih h.2) hcons

end Progress

end KernelCall
