import KernelCall.Fault
import KernelCall.Progress

/-!
# Categories of errors

A computation raises errors of some categories if every error it can end with belongs to one of
them. The notion composes: what a computation raises is found by following how it is put together.
-/

namespace KernelCall

variable {α β : Type} {ks : List BindErrorKind}

/-- Every error, if there is one, belongs to one of the categories. -/
def Raises (ks : List BindErrorKind) (x : Except BindError α) : Prop :=
  ∀ e, x = .error e → e.kind ∈ ks

theorem Raises.mono {ks' : List BindErrorKind} {x : Except BindError α} (h : Raises ks x)
    (hks : ks ⊆ ks') : Raises ks' x :=
  fun e he ↦ hks (h e he)

theorem raises_ok (a : α) : Raises ks (.ok a : Except BindError α) := by
  rintro e ⟨⟩

theorem raises_blame {fault : Fault} (h : fault.kind ∈ ks) (path : String) :
    Raises ks (.error (fault.blame path) : Except BindError α) := by
  rintro e ⟨⟩
  exact h

theorem Raises.bind {x : Except BindError α} {f : α → Except BindError β} (hx : Raises ks x)
    (hf : ∀ a, x = .ok a → Raises ks (f a)) : Raises ks (x >>= f) := by
  intro e he
  cases x with
  | error e' =>
    cases he
    exact hx e rfl
  | ok a => exact hf a rfl e he

theorem raises_mapM {f : α → Except BindError β} {xs : List α} (hf : ∀ x ∈ xs, Raises ks (f x)) :
    Raises ks (xs.mapM f) := by
  induction xs with
  | nil => exact raises_ok []
  | cons x xs ih =>
    rw [List.mapM_cons]
    refine Raises.bind (hf x List.mem_cons_self) fun y _ ↦ ?_
    refine Raises.bind (ih fun z hz ↦ hf z (List.mem_cons_of_mem x hz)) fun ys _ ↦ ?_
    exact raises_ok (y :: ys)

theorem raises_foldlM {f : β → α → Except BindError β} {xs : List α}
    (hf : ∀ b, ∀ x ∈ xs, Raises ks (f b x)) (b : β) : Raises ks (xs.foldlM f b) := by
  induction xs generalizing b with
  | nil => exact raises_ok b
  | cons x xs ih =>
    rw [List.foldlM_cons]
    refine Raises.bind (hf b x List.mem_cons_self) fun b' _ ↦ ?_
    exact ih (fun b z hz ↦ hf b z (List.mem_cons_of_mem x hz)) b'

/-! ## Outcomes up to wording -/

/-- Two computations come to the same: to results that are related, or to errors of one category at
one place. The wording of the errors may differ. -/
inductive SameOutcome (R : α → β → Prop) : Except BindError α → Except BindError β → Prop where
  | ok {a : α} {b : β} (h : R a b) : SameOutcome R (.ok a) (.ok b)
  | error {e e' : BindError} (hkind : e'.kind = e.kind) (hpath : e'.path = e.path) :
    SameOutcome R (.error e) (.error e')

namespace SameOutcome

variable {γ δ : Type} {R : α → β → Prop} {x : Except BindError α} {y : Except BindError β}

theorem image (k : α → β) (x : Except BindError α) :
    SameOutcome (fun a b ↦ b = k a) x (x.map k) := by
  cases x with
  | ok a => exact .ok rfl
  | error e => exact .error rfl rfl

theorem imp {S : α → β → Prop} (h : SameOutcome R x y) (hrs : ∀ a b, R a b → S a b) :
    SameOutcome S x y := by
  cases h with
  | ok hab => exact .ok (hrs _ _ hab)
  | error hkind hpath => exact .error hkind hpath

theorem bind {S : γ → δ → Prop} {f : α → Except BindError γ} {g : β → Except BindError δ}
    (h : SameOutcome R x y) (hf : ∀ a b, R a b → SameOutcome S (f a) (g b)) :
    SameOutcome S (x >>= f) (y >>= g) := by
  cases h with
  | ok hab => exact hf _ _ hab
  | error hkind hpath => exact .error hkind hpath

theorem common {S : γ → β → Prop} {z : Except BindError γ} (h : SameOutcome R x y)
    (h' : SameOutcome S z y) : SameOutcome (fun a c ↦ ∃ b, R a b ∧ S c b) x z := by
  cases h with
  | ok hab =>
    cases h' with
    | ok hcb => exact .ok ⟨_, hab, hcb⟩
  | error hkind hpath =>
    cases h' with
    | error hkind' hpath' => exact .error (hkind'.symm.trans hkind) (hpath'.symm.trans hpath)

theorem mapM_image {g : γ → δ} {k : α → β} {f : γ → Except BindError α}
    {f' : δ → Except BindError β} {xs : List γ}
    (h : ∀ x ∈ xs, SameOutcome (fun a b ↦ b = k a) (f x) (f' (g x))) :
    SameOutcome (fun as bs ↦ bs = as.map k) (xs.mapM f) ((xs.map g).mapM f') := by
  induction xs with
  | nil => exact .ok rfl
  | cons x xs ih =>
    rw [List.forall_mem_cons] at h
    rw [List.map_cons, List.mapM_cons, List.mapM_cons]
    refine h.1.bind fun a _ ha ↦ (ih h.2).bind fun as _ has ↦ .ok ?_
    rw [ha, has, List.map_cons]

end SameOutcome

namespace Progress

variable {σ τ : Type}

/-- Every error that stops the pass belongs to one of the categories. -/
def Raises (ks : List BindErrorKind) (p : Progress σ) : Prop :=
  ∀ e, p.error? = some e → e.kind ∈ ks

theorem Raises.mono {ks' : List BindErrorKind} {p : Progress σ} (h : p.Raises ks) (hks : ks ⊆ ks') :
    p.Raises ks' :=
  fun e he ↦ hks (h e he)

theorem raises_done (s : σ) : (done s).Raises ks := by
  rintro e ⟨⟩

theorem raises_blame {fault : Fault} (h : fault.kind ∈ ks) (s : σ) (path : String) :
    (stopped s (fault.blame path)).Raises ks := by
  rintro e ⟨⟩
  exact h

theorem raises_ofExcept {s : σ} {x : Except BindError σ} (h : KernelCall.Raises ks x) :
    (ofExcept s x).Raises ks := by
  intro e he
  cases x with
  | error e' =>
    cases he
    exact h e rfl
  | ok a => cases he

theorem raises_map {f : σ → τ} {p : Progress σ} (h : p.Raises ks) : (p.map f).Raises ks := h

theorem raises_andThen {p : Progress σ} {left : σ → τ} {next : σ → Progress τ} (h : p.Raises ks)
    (hnext : ∀ s, (next s).Raises ks) : (p.andThen left next).Raises ks := by
  intro e he
  rw [andThen] at he
  cases herror : p.error? with
  | some e' =>
    rw [herror] at he
    cases he
    exact h e herror
  | none =>
    rw [herror] at he
    exact hnext p.state e he

theorem raises_traverse {f : σ → Progress σ} {xs : List σ} (hf : ∀ x ∈ xs, (f x).Raises ks) :
    (traverse f xs).Raises ks := by
  induction xs with
  | nil => exact raises_done []
  | cons x xs ih =>
    rw [traverse]
    refine raises_andThen (hf x List.mem_cons_self) fun y ↦ raises_map ?_
    exact ih fun z hz ↦ hf z (List.mem_cons_of_mem x hz)

theorem raises_toExcept {p : Progress σ} (h : p.Raises ks) : KernelCall.Raises ks p.toExcept := by
  intro e he
  rw [toExcept] at he
  cases herror : p.error? with
  | some e' =>
    rw [herror] at he
    cases he
    exact h e herror
  | none =>
    rw [herror] at he
    cases he

end Progress

end KernelCall
