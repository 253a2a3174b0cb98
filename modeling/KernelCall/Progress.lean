import KernelCall.BindError

/-!
# Progress of a pass

A pass over a call changes one variable after the other and stops at the first error. What it has
changed by then stays changed: the caller may go on with the call as the pass left it. So a pass
returns the new state in either case, and the error besides.
-/

namespace KernelCall

/-- The state in which a pass leaves its subject, and the error that stopped it, if any. -/
structure Progress (σ : Type) where
  state : σ
  error? : Option BindError := none

namespace Progress

variable {σ τ : Type}

/-- The pass went through. -/
def done (s : σ) : Progress σ := ⟨s, none⟩

/-- The pass stopped. -/
def stopped (s : σ) (e : BindError) : Progress σ := ⟨s, some e⟩

/-- The result of a step that changes nothing when it fails. -/
def ofExcept (s : σ) : Except BindError σ → Progress σ
  | .ok s' => done s'
  | .error e => stopped s e

def map (f : σ → τ) (p : Progress σ) : Progress τ := ⟨f p.state, p.error?⟩

/-- Goes on with the state reached, unless the pass has stopped; `left` says what is left then. -/
def andThen (p : Progress σ) (left : σ → τ) (next : σ → Progress τ) : Progress τ :=
  match p.error? with
  | some e => stopped (left p.state) e
  | none => next p.state

/-- Treats the members of a list in order, and leaves those after a failure as they are. -/
def traverse (f : σ → Progress σ) : List σ → Progress (List σ)
  | [] => done []
  | x :: xs => (f x).andThen (· :: xs) fun y ↦ (traverse f xs).map (y :: ·)

/-- The final state, or the error. -/
def toExcept (p : Progress σ) : Except BindError σ :=
  match p.error? with
  | some e => .error e
  | none => .ok p.state

@[simp] theorem error?_done (s : σ) : (done s).error? = none := rfl

@[simp] theorem state_done (s : σ) : (done s).state = s := rfl

@[simp] theorem error?_stopped (s : σ) (e : BindError) : (stopped s e).error? = some e := rfl

@[simp] theorem state_stopped (s : σ) (e : BindError) : (stopped s e).state = s := rfl

@[simp] theorem error?_map (f : σ → τ) (p : Progress σ) : (p.map f).error? = p.error? := rfl

@[simp] theorem state_map (f : σ → τ) (p : Progress σ) : (p.map f).state = f p.state := rfl

@[simp] theorem andThen_done (s : σ) (left : σ → τ) (next : σ → Progress τ) :
    (done s).andThen left next = next s := rfl

@[simp] theorem andThen_stopped (s : σ) (e : BindError) (left : σ → τ) (next : σ → Progress τ) :
    (stopped s e).andThen left next = stopped (left s) e := rfl

end Progress

end KernelCall
