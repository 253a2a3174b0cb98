import KernelCall.Progress
import Mathlib.Data.List.Forall2

/-!
# Results of passes

A pass that goes through leaves a result; of one that stops only the error is of interest here. Read
this way a pass is a function into `Option`, and a pass over a list is `List.mapM`. Failure is the
only effect of `Option`, so two passes that follow each other over a list are one pass that treats
each member by both: `mapM_bind_mapM` is the law behind every reordering of passes.
-/

namespace KernelCall

/-! ## Options -/

/-- Of two computations of which one goes on, it makes no difference which comes first. -/
theorem bind_bind_map_comm {α β γ δ : Type} (x : Option α) (y : Option β) (g : α → β → Option γ)
    (k : α → γ → δ) : (y.bind fun b ↦ x.bind fun a ↦ (g a b).map (k a)) =
      x.bind fun a ↦ (y.bind (g a)).map (k a) := by
  rw [Option.bind_comm]
  exact Option.bind_congr fun a _ ↦ (Option.map_bind ..).symm

theorem toOption_bind {ε α β : Type} (e : Except ε α) (f : α → Except ε β) :
    (e >>= f).toOption = e.toOption.bind fun a ↦ (f a).toOption := by
  cases e <;> rfl

theorem bind_eq_ok_iff {ε α β : Type} {e : Except ε α} {f : α → Except ε β} {b : β} :
    (e >>= f) = .ok b ↔ ∃ a, e = .ok a ∧ f a = .ok b := by
  constructor
  · intro h
    cases e with
    | error e => cases h
    | ok a => exact ⟨a, rfl, h⟩
  · rintro ⟨a, rfl, h⟩
    exact h

/-- A computation goes on to images of what it goes on to. -/
theorem bind_image {ε α β γ : Type} {x : Except ε α} {f : α → Except ε β} {f' : α → Except ε γ}
    {k : β → γ} (h : ∀ a, f' a = (f a).map k) : (x >>= f') = (x >>= f).map k := by
  cases x with
  | error e => rfl
  | ok a => exact h a

theorem map_bind_image {ε α α' β γ : Type} {x : Except ε α} {g : α → α'} {f : α → Except ε β}
    {f' : α' → Except ε γ} {k : β → γ} (h : ∀ a, x = .ok a → f' (g a) = (f a).map k) :
    (x.map g >>= f') = (x >>= f).map k := by
  cases x with
  | error e => rfl
  | ok a => exact h a rfl

theorem except_map_congr {ε α β : Type} {x : Except ε α} {f g : α → β}
    (h : ∀ a, x = .ok a → f a = g a) : x.map f = x.map g := by
  cases x with
  | error e => rfl
  | ok a => exact congrArg Except.ok (h a rfl)

theorem except_map_self {ε α : Type} {x : Except ε α} {f : α → α}
    (h : ∀ a, x = .ok a → f a = a) : x.map f = x := by
  cases x with
  | error e => rfl
  | ok a => exact congrArg Except.ok (h a rfl)

theorem map_eq_ok_iff {ε α β : Type} {e : Except ε α} {f : α → β} {b : β} :
    f <$> e = .ok b ↔ ∃ a, e = .ok a ∧ f a = b := by
  constructor
  · intro h
    cases e with
    | error e => cases h
    | ok a =>
      cases h
      exact ⟨a, rfl, rfl⟩
  · rintro ⟨a, rfl, rfl⟩
    rfl

theorem toOption_eq_some_iff {ε α : Type} {e : Except ε α} {a : α} :
    e.toOption = some a ↔ e = .ok a := by
  cases e <;> simp [Except.toOption]

section

variable {α β : Type} {R : α → β → Prop} {x? : Option α} {y? : Option β}

/-- Of two options that are related both are there, or neither is. -/
theorem exists_of_rel_left {x : α} (h : Option.Rel R (some x) y?) : ∃ y, y? = some y ∧ R x y := by
  cases h with
  | some hxy => exact ⟨_, rfl, hxy⟩

theorem exists_of_rel_right {y : β} (h : Option.Rel R x? (some y)) : ∃ x, x? = some x ∧ R x y := by
  cases h with
  | some hxy => exact ⟨_, rfl, hxy⟩

theorem rel_imp {S : α → β → Prop} (h : Option.Rel R x? y?) (hrs : ∀ x y, R x y → S x y) :
    Option.Rel S x? y? := by
  cases h with
  | none => exact .none
  | some hxy => exact .some (hrs _ _ hxy)

theorem rel_bind {γ δ : Type} {S : γ → δ → Prop} {f : α → Option γ} {g : β → Option δ}
    (h : Option.Rel R x? y?) (hfg : ∀ x y, R x y → Option.Rel S (f x) (g y)) :
    Option.Rel S (x?.bind f) (y?.bind g) := by
  cases h with
  | none => exact .none
  | some hxy => exact hfg _ _ hxy

end

section MapM

variable {α β γ : Type}

theorem option_mapM_nil (f : α → Option β) : [].mapM f = some [] := rfl

theorem option_mapM_cons (f : α → Option β) (x : α) (xs : List α) :
    (x :: xs).mapM f = (f x).bind fun y ↦ (xs.mapM f).map (y :: ·) := by
  rw [List.mapM_cons]
  cases f x with
  | none => rfl
  | some y => cases xs.mapM f <;> rfl

theorem bind_map_cons_eq_some_iff {y? : Option β} {ys? : Option (List β)} {zs : List β} :
    (y?.bind fun y ↦ ys?.map (y :: ·)) = some zs ↔
      ∃ y ys, y? = some y ∧ ys? = some ys ∧ zs = y :: ys := by
  cases y? <;> cases ys? <;> simp [eq_comm (a := zs)]

theorem toOption_mapM {ε : Type} (f : α → Except ε β) (xs : List α) :
    (xs.mapM f).toOption = xs.mapM fun x ↦ (f x).toOption := by
  induction xs with
  | nil => rfl
  | cons x xs ih =>
    rw [List.mapM_cons, option_mapM_cons, toOption_bind]
    refine Option.bind_congr fun y _ ↦ ?_
    rw [toOption_bind, ih, Option.map_eq_bind]
    rfl

/-- What `mapM` returns, member by member. -/
theorem mapM_eq_some_iff {f : α → Option β} {xs : List α} {ys : List β} :
    xs.mapM f = some ys ↔ List.Forall₂ (fun x y ↦ f x = some y) xs ys := by
  induction xs generalizing ys with
  | nil =>
    rw [option_mapM_nil, List.forall₂_nil_left_iff, Option.some.injEq, eq_comm]
  | cons x xs ih =>
    rw [option_mapM_cons, List.forall₂_cons_left_iff]
    constructor
    · intro h
      obtain ⟨y, hy, h⟩ := Option.bind_eq_some_iff.mp h
      obtain ⟨zs, hzs, rfl⟩ := Option.map_eq_some_iff.mp h
      exact ⟨y, zs, hy, ih.mp hzs, rfl⟩
    · rintro ⟨y, zs, hy, hzs, rfl⟩
      rw [hy, Option.bind_some, ih.mpr hzs, Option.map_some]

theorem forall₂_of_mem {P Q : α → β → Prop} {xs : List α} {ys : List β}
    (h : List.Forall₂ P xs ys) (hpq : ∀ x ∈ xs, ∀ y ∈ ys, P x y → Q x y) :
    List.Forall₂ Q xs ys := by
  induction h with
  | nil => exact .nil
  | @cons x y xs ys hxy _ ih =>
    exact .cons (hpq x List.mem_cons_self y List.mem_cons_self hxy) (ih fun a ha b hb ↦
      hpq a (List.mem_cons_of_mem x ha) b (List.mem_cons_of_mem y hb))

theorem forall₂_both {P Q : α → β → Prop} {xs : List α} {ys : List β} (hp : List.Forall₂ P xs ys)
    (hq : List.Forall₂ Q xs ys) : List.Forall₂ (fun x y ↦ P x y ∧ Q x y) xs ys := by
  rw [List.forall₂_iff_get] at *
  exact ⟨hp.1, fun i hx hy ↦ ⟨hp.2 i hx hy, hq.2 i hx hy⟩⟩

theorem forall₂_iff_getElem? {R : α → β → Prop} {xs : List α} {ys : List β}
    (h : xs.length = ys.length) : List.Forall₂ R xs ys ↔
      ∀ (i : Nat) (x : α) (y : β), xs[i]? = some x → ys[i]? = some y → R x y := by
  rw [List.forall₂_iff_get]
  constructor
  · rintro ⟨-, hget⟩ i x y hx hy
    obtain ⟨hi, rfl⟩ := List.getElem?_eq_some_iff.mp hx
    obtain ⟨hi', rfl⟩ := List.getElem?_eq_some_iff.mp hy
    exact hget i hi hi'
  · intro hget
    refine ⟨h, fun i hi hi' ↦ hget i _ _ ?_ ?_⟩
    · exact List.getElem?_eq_getElem hi
    · exact List.getElem?_eq_getElem hi'

theorem rel_getElem?_of_forall₂ {R : α → β → Prop} {xs : List α} {ys : List β}
    (h : List.Forall₂ R xs ys) (i : Nat) : Option.Rel R xs[i]? ys[i]? := by
  induction h generalizing i with
  | nil => exact .none
  | cons hxy _ ih =>
    cases i with
    | zero => exact .some hxy
    | succ i => exact ih i

theorem forall₂_of_rel_getElem? {R : α → β → Prop} {xs : List α} {ys : List β}
    (h : ∀ i : Nat, Option.Rel R xs[i]? ys[i]?) : List.Forall₂ R xs ys := by
  induction xs generalizing ys with
  | nil =>
    cases ys with
    | nil => exact .nil
    | cons y ys => cases h 0
  | cons x xs ih =>
    cases ys with
    | nil => cases h 0
    | cons y ys =>
      have hxy : R x y := by
        cases h 0 with
        | some hxy => exact hxy
      exact .cons hxy (ih fun i ↦ h (i + 1))

theorem zipWith_eq_right_iff {f : α → β → β} {xs : List α} {ys : List β}
    (h : xs.length = ys.length) :
    xs.zipWith f ys = ys ↔ List.Forall₂ (fun x y ↦ f x y = y) xs ys := by
  induction xs generalizing ys with
  | nil =>
    obtain rfl := List.length_eq_zero_iff.mp h.symm
    exact iff_of_true rfl .nil
  | cons x xs ih =>
    obtain ⟨y, ys, rfl⟩ := List.exists_cons_of_length_eq_add_one h.symm
    rw [List.zipWith_cons_cons, List.cons.injEq, List.forall₂_cons, ih (Nat.succ.inj h)]

theorem map_eq_of_forall₂ {γ : Type} {f : α → γ} {g : β → γ} {xs : List α} {ys : List β}
    (h : List.Forall₂ (fun x y ↦ f x = g y) xs ys) : xs.map f = ys.map g := by
  rw [← List.forall₂_eq_eq_eq, List.forall₂_map_left_iff, List.forall₂_map_right_iff]
  exact h

theorem eq_of_forall₂ {γ : Type} {R : α → β → Prop} {P : α → γ → Prop} {Q : β → γ → Prop}
    {xs : List α} {ys : List β} {as bs : List γ} (h : List.Forall₂ R xs ys)
    (ha : List.Forall₂ P xs as) (hb : List.Forall₂ Q ys bs)
    (heq : ∀ x ∈ xs, ∀ y a b, R x y → P x a → Q y b → a = b) : as = bs := by
  induction h generalizing as bs with
  | nil =>
    cases ha
    cases hb
    rfl
  | @cons x y xs ys hxy _ ih =>
    obtain ⟨a, as, hxa, has, rfl⟩ := List.forall₂_cons_left_iff.mp ha
    obtain ⟨b, bs, hyb, hbs, rfl⟩ := List.forall₂_cons_left_iff.mp hb
    rw [heq x List.mem_cons_self y a b hxy hxa hyb,
      ih has hbs fun z hz ↦ heq z (List.mem_cons_of_mem x hz)]

/-- What comes of one list in two ways is related member by member. -/
theorem forall₂_of_common {γ : Type} {P : α → β → Prop} {Q : α → γ → Prop} {R : β → γ → Prop}
    {xs : List α} {ys : List β} {zs : List γ} (hp : List.Forall₂ P xs ys)
    (hq : List.Forall₂ Q xs zs) (h : ∀ x ∈ xs, ∀ y z, P x y → Q x z → R y z) :
    List.Forall₂ R ys zs := by
  induction hp generalizing zs with
  | nil =>
    cases hq
    exact .nil
  | @cons x y xs ys hxy _ ih =>
    obtain ⟨z, zs, hxz, hzs, rfl⟩ := List.forall₂_cons_left_iff.mp hq
    exact .cons (h x List.mem_cons_self y z hxy hxz)
      (ih hzs fun a ha ↦ h a (List.mem_cons_of_mem x ha))

theorem exists_append_of_forall₂ {P : α → β → Prop} {xs ys : List α} {zs : List β}
    (h : List.Forall₂ P (xs ++ ys) zs) :
    ∃ as bs, List.Forall₂ P xs as ∧ List.Forall₂ P ys bs ∧ zs = as ++ bs := by
  induction xs generalizing zs with
  | nil => exact ⟨[], zs, .nil, h, rfl⟩
  | cons x xs ih =>
    obtain ⟨a, zs, hxa, hrest, rfl⟩ := List.forall₂_cons_left_iff.mp h
    obtain ⟨as, bs, has, hbs, rfl⟩ := ih hrest
    exact ⟨a :: as, bs, .cons hxa has, hbs, rfl⟩

theorem rel_flatMap_of_mem {γ δ : Type} {P : α → β → Prop} {Q : γ → δ → Prop} {f : α → List γ}
    {g : β → List δ} {xs : List α} {ys : List β} (h : List.Forall₂ P xs ys)
    (hq : ∀ x ∈ xs, ∀ y ∈ ys, P x y → List.Forall₂ Q (f x) (g y)) :
    List.Forall₂ Q (xs.flatMap f) (ys.flatMap g) :=
  List.rel_flatMap (forall₂_of_mem h hq) fun _ _ hxy ↦ hxy

theorem mapM_eq_ok_iff {ε : Type} {f : α → Except ε β} {xs : List α} {ys : List β} :
    xs.mapM f = .ok ys ↔ List.Forall₂ (fun x y ↦ f x = .ok y) xs ys := by
  rw [← toOption_eq_some_iff, toOption_mapM, mapM_eq_some_iff]
  simp only [toOption_eq_some_iff]

theorem exists_of_forall₂_left {P : α → β → Prop} {xs : List α} {ys : List β}
    (h : List.Forall₂ P xs ys) {x : α} (hx : x ∈ xs) : ∃ y ∈ ys, P x y := by
  induction h with
  | nil => cases hx
  | @cons z y zs ys hzy _ ih =>
    rcases List.mem_cons.mp hx with rfl | hx
    · exact ⟨y, List.mem_cons_self, hzy⟩
    · obtain ⟨y', hy', hxy⟩ := ih hx
      exact ⟨y', List.mem_cons_of_mem y hy', hxy⟩

theorem exists_of_forall₂_right {P : α → β → Prop} {xs : List α} {ys : List β}
    (h : List.Forall₂ P xs ys) {y : β} (hy : y ∈ ys) : ∃ x ∈ xs, P x y := by
  induction h with
  | nil => cases hy
  | @cons x z xs zs hxz _ ih =>
    rcases List.mem_cons.mp hy with rfl | hy
    · exact ⟨x, List.mem_cons_self, hxz⟩
    · obtain ⟨x', hx', hxy⟩ := ih hy
      exact ⟨x', List.mem_cons_of_mem x hx', hxy⟩

theorem exists_of_mem_mapM {f : α → Option β} {xs : List α} {ys : List β}
    (h : xs.mapM f = some ys) {y : β} (hy : y ∈ ys) : ∃ x ∈ xs, f x = some y :=
  exists_of_forall₂_right (mapM_eq_some_iff.mp h) hy

/-- Where a step goes through on a condition, and to what a map makes of the member, `mapM` goes through
on the condition for every member, and to the map of the list. -/
theorem mapM_eq_some_map_iff {f : α → Option β} {P : α → Prop} {g : α → β} {xs : List α} {ys : List β}
    (h : ∀ x ∈ xs, ∀ y, f x = some y ↔ P x ∧ y = g x) :
    xs.mapM f = some ys ↔ (∀ x ∈ xs, P x) ∧ ys = xs.map g := by
  induction xs generalizing ys with
  | nil =>
    rw [option_mapM_nil, Option.some.injEq, eq_comm]
    simp
  | cons x xs ih =>
    rw [List.forall_mem_cons] at h
    rw [option_mapM_cons, bind_map_cons_eq_some_iff, List.forall_mem_cons, List.map_cons]
    simp only [h.1, ih h.2]
    constructor
    · rintro ⟨_, _, ⟨hx, rfl⟩, ⟨hxs, rfl⟩, rfl⟩
      exact ⟨⟨hx, hxs⟩, rfl⟩
    · rintro ⟨⟨hx, hxs⟩, rfl⟩
      exact ⟨_, _, ⟨hx, rfl⟩, ⟨hxs, rfl⟩, rfl⟩

theorem mapM_congr {m : Type → Type} [Monad m] [LawfulMonad m] {f g : α → m β} {xs : List α}
    (h : ∀ x ∈ xs, f x = g x) : xs.mapM f = xs.mapM g := by
  induction xs with
  | nil => rfl
  | cons x xs ih =>
    rw [List.mapM_cons, List.mapM_cons, h x List.mem_cons_self,
      ih fun y hy ↦ h y (List.mem_cons_of_mem x hy)]

theorem mapM_eq_of_forall₂ {α' : Type} {f : α → Option β} {g : α' → Option β} {xs : List α}
    {ys : List α'} (h : List.Forall₂ (fun x y ↦ f x = g y) xs ys) : xs.mapM f = ys.mapM g := by
  induction h with
  | nil => rfl
  | cons hxy _ ih => rw [option_mapM_cons, option_mapM_cons, hxy, ih]

theorem mapM_eq_self {f : α → Option α} {xs : List α} (h : ∀ x ∈ xs, f x = some x) :
    xs.mapM f = some xs :=
  mapM_eq_some_iff.mpr (List.forall₂_same.mpr h)

theorem mapM_of_mapM {f : α → Option α} {xs ys : List α} (hys : xs.mapM f = some ys)
    (h : ∀ x ∈ xs, ∀ y, f x = some y → f y = some y) : ys.mapM f = some ys := by
  refine mapM_eq_self fun y hy ↦ ?_
  obtain ⟨x, hx, hxy⟩ := exists_of_mem_mapM hys hy
  exact h x hx y hxy

theorem exists_mapM {f : α → Option β} {xs : List α} (h : ∀ x ∈ xs, ∃ y, f x = some y) :
    ∃ ys, xs.mapM f = some ys := by
  induction xs with
  | nil => exact ⟨[], rfl⟩
  | cons x xs ih =>
    obtain ⟨y, hy⟩ := h x List.mem_cons_self
    obtain ⟨ys, hys⟩ := ih fun z hz ↦ h z (List.mem_cons_of_mem x hz)
    refine ⟨y :: ys, ?_⟩
    rw [option_mapM_cons, hy, hys]
    rfl

theorem exists_mapM_ok {ε : Type} {f : α → Except ε β} {xs : List α}
    (h : ∀ x ∈ xs, ∃ y, f x = .ok y) : ∃ ys, xs.mapM f = .ok ys := by
  obtain ⟨ys, hys⟩ := exists_mapM fun x hx ↦
    (h x hx).imp fun y (hy : f x = .ok y) ↦ toOption_eq_some_iff.mpr hy
  rw [← toOption_mapM] at hys
  exact ⟨ys, toOption_eq_some_iff.mp hys⟩

/-- **Two passes are one.** Whether the first pass over the whole list or the second one over a
member fails first makes no difference to the result. -/
theorem mapM_bind_mapM (f : α → Option β) (g : β → Option γ) (xs : List α) :
    ((xs.mapM f).bind fun ys ↦ ys.mapM g) = xs.mapM fun x ↦ (f x).bind g := by
  induction xs with
  | nil => rfl
  | cons x xs ih =>
    rw [option_mapM_cons, option_mapM_cons, ← ih]
    cases f x with
    | none => rfl
    | some y =>
      cases xs.mapM f with
      | none => cases hg : g y <;> simp [hg]
      | some ys => rw [Option.bind_some, Option.map_some, Option.bind_some, Option.bind_some,
          Option.bind_some, option_mapM_cons]

end MapM

theorem findSome?_flatMap_eq {α β γ : Type} {f : β → Option γ} {g : α → List β} {h : α → Option γ}
    {xs : List α} (hfg : ∀ x ∈ xs, h x = (g x).findSome? f) :
    xs.findSome? h = (xs.flatMap g).findSome? f := by
  induction xs with
  | nil => rfl
  | cons x xs ih =>
    rw [List.forall_mem_cons] at hfg
    rw [List.flatMap_cons, List.findSome?_append, List.findSome?_cons, hfg.1, ih hfg.2]
    cases (g x).findSome? f <;> rfl

/-! ## Passes -/

namespace Progress

variable {σ τ : Type}

/-- What a pass leaves that goes through. -/
def result? (p : Progress σ) : Option σ := p.toExcept.toOption

theorem toOption_toExcept (p : Progress σ) : p.toExcept.toOption = p.result? := rfl

@[simp] theorem result?_done (s : σ) : (done s).result? = some s := rfl

@[simp] theorem result?_ofExcept (s : σ) (e : Except BindError σ) :
    (ofExcept s e).result? = e.toOption := by
  cases e <;> rfl

@[simp] theorem result?_map (f : σ → τ) (p : Progress σ) :
    (p.map f).result? = p.result?.map f := by
  rcases p with ⟨s, _ | e⟩ <;> rfl

@[simp] theorem result?_andThen (p : Progress σ) (left : σ → τ) (next : σ → Progress τ) :
    (p.andThen left next).result? = p.result?.bind fun s ↦ (next s).result? := by
  rcases p with ⟨s, _ | e⟩ <;> rfl

theorem result?_traverse (f : σ → Progress σ) (xs : List σ) :
    (traverse f xs).result? = xs.mapM fun x ↦ (f x).result? := by
  induction xs with
  | nil => rfl
  | cons x xs ih =>
    rw [traverse, result?_andThen, option_mapM_cons]
    simp only [result?_map, ih]

/-! A pass over a list stops with the error of the first member that fails. -/

theorem error?_andThen (p : Progress σ) (left : σ → τ) (next : σ → Progress τ) :
    (p.andThen left next).error? = p.error?.or (next p.state).error? := by
  rw [andThen]
  cases p.error? <;> rfl

theorem error?_traverse (f : σ → Progress σ) (xs : List σ) :
    (traverse f xs).error? = xs.findSome? fun x ↦ (f x).error? := by
  induction xs with
  | nil => rfl
  | cons x xs ih =>
    rw [traverse, error?_andThen, error?_map, ih, List.findSome?_cons]
    cases (f x).error? <;> rfl

theorem traverse_congr {f g : σ → Progress σ} {xs : List σ} (h : ∀ x ∈ xs, f x = g x) :
    traverse f xs = traverse g xs := by
  induction xs with
  | nil => rfl
  | cons x xs ih =>
    rw [List.forall_mem_cons] at h
    rw [traverse, traverse, h.1, ih h.2]

theorem state_of_result? {p : Progress σ} {s : σ} (h : p.result? = some s) : p.state = s := by
  rcases p with ⟨t, _ | e⟩
  · cases h
    rfl
  · cases h

/-! What a pass leaves when it is stopped is a state like any other. -/

/-- The state after two passes is what is left when the first stops, or what the second leaves. -/
theorem state_andThen_cases {motive : τ → Prop} {p : Progress σ} {left : σ → τ}
    {next : σ → Progress τ} (hleft : motive (left p.state)) (hnext : motive (next p.state).state) :
    motive (p.andThen left next).state := by
  rw [andThen]
  cases p.error? with
  | none => exact hnext
  | some e => exact hleft

theorem state_ofExcept_cases {motive : σ → Prop} {s : σ} {e : Except BindError σ} (hs : motive s)
    (h : ∀ s', e = .ok s' → motive s') : motive (ofExcept s e).state := by
  cases e with
  | ok s' => exact h s' rfl
  | error e => exact hs

/-- Each member of a list that is treated in order is as its step leaves it, or as it was. -/
theorem forall₂_state_traverse {R : σ → σ → Prop} {f : σ → Progress σ} {xs : List σ}
    (hf : ∀ x ∈ xs, R x (f x).state) (hrefl : ∀ x ∈ xs, R x x) :
    List.Forall₂ R xs (traverse f xs).state := by
  induction xs with
  | nil => exact .nil
  | cons x xs ih =>
    rw [List.forall_mem_cons] at hf hrefl
    rw [traverse]
    refine state_andThen_cases ?_ ?_
    · exact .cons hf.1 (List.forall₂_same.mpr hrefl.2)
    · exact .cons hf.1 (ih hf.2 hrefl.2)

theorem result?_eq_some_iff {p : Progress σ} {s : σ} :
    p.result? = some s ↔ p.toExcept = .ok s := toOption_eq_some_iff

theorem error?_of_result? {p : Progress σ} {s : σ} (h : p.result? = some s) : p.error? = none := by
  rcases p with ⟨t, _ | e⟩
  · rfl
  · cases h

theorem result?_of_error? {p : Progress σ} (h : p.error? = none) : p.result? = some p.state := by
  rcases p with ⟨t, _ | e⟩
  · rfl
  · cases h

theorem eq_done_iff {p : Progress σ} {s : σ} : p = done s ↔ p.result? = some s := by
  constructor
  · rintro rfl
    rfl
  · intro h
    rcases p with ⟨t, _ | e⟩ <;> cases h
    rfl

/-! ## Passes and maps

A pass that treats the image of a state as it treats the state leaves the image of what it leaves,
with the same error. Such passes can be put together. -/

theorem map_map {υ : Type} (f : σ → τ) (g : τ → υ) (p : Progress σ) :
    (p.map f).map g = p.map (g ∘ f) := rfl

theorem ofExcept_image {g : σ → τ} {s : σ} {e : Except BindError σ} {e' : Except BindError τ}
    (h : e' = e.map g) : ofExcept (g s) e' = (ofExcept s e).map g := by
  rw [h]
  cases e <;> rfl

theorem andThen_image {σ' τ' : Type} {g : σ → σ'} {k : τ → τ'} {p : Progress σ} {p' : Progress σ'}
    {left : σ → τ} {left' : σ' → τ'} {next : σ → Progress τ} {next' : σ' → Progress τ'}
    (hp : p' = p.map g) (hleft : ∀ s, left' (g s) = k (left s))
    (hnext : ∀ s, next' (g s) = (next s).map k) :
    p'.andThen left' next' = (p.andThen left next).map k := by
  rw [hp]
  rcases p with ⟨s, _ | e⟩
  · exact hnext s
  · exact congrArg (stopped · e) (hleft s)

theorem traverse_image {g : σ → τ} {f : σ → Progress σ} {f' : τ → Progress τ} {xs : List σ}
    (h : ∀ x ∈ xs, f' (g x) = (f x).map g) :
    traverse f' (xs.map g) = (traverse f xs).map (List.map g) := by
  induction xs with
  | nil => rfl
  | cons x xs ih =>
    rw [List.forall_mem_cons] at h
    refine andThen_image h.1 (fun y ↦ rfl) fun y ↦ ?_
    rw [ih h.2, map_map, map_map]
    rfl

theorem toExcept_map (g : σ → τ) (p : Progress σ) : (p.map g).toExcept = p.toExcept.map g := by
  rcases p with ⟨s, _ | e⟩ <;> rfl

theorem toExcept_andThen (p : Progress σ) (left : σ → τ) (next : σ → Progress τ) :
    (p.andThen left next).toExcept = p.toExcept >>= fun s ↦ (next s).toExcept := by
  rcases p with ⟨s, _ | e⟩ <;> rfl

theorem toExcept_traverse_image {g : σ → σ} {f f' : σ → Progress σ} {xs : List σ}
    (h : ∀ x ∈ xs, (f' x).toExcept = (f x).toExcept.map g) :
    (traverse f' xs).toExcept = (traverse f xs).toExcept.map (List.map g) := by
  induction xs with
  | nil => rfl
  | cons x xs ih =>
    rw [List.forall_mem_cons] at h
    rw [traverse, traverse, toExcept_andThen, toExcept_andThen, h.1]
    refine map_bind_image fun y _ ↦ ?_
    rw [toExcept_map, toExcept_map, ih h.2]
    cases (traverse f xs).toExcept <;> rfl

/-- A map may look at what a pass keeps. -/
theorem map_congr {f g : σ → τ} {p : Progress σ} (h : f p.state = g p.state) : p.map f = p.map g := by
  rw [map, map, h]

end Progress

end KernelCall
