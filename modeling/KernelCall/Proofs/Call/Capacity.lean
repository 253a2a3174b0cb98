import KernelCall.Proofs.Call.Dimensions

/-!
# What the call data has room for

A storage type has room for the dimensions of the container it names and for those of one element.
For most values this is the whole value: containers are stored as themselves, and so are pairs of a
number and its gradient, whatever an invocation receives of them. Plain values and references to them
are stored as what an invocation receives. That is the whole value exactly if none of its dimensions
becomes an axis of the dispatch; a vector that is taken apart leaves room for a single component.
-/

namespace KernelCall

/-! ## Storage types -/

/-- The dimensions a storage type has room for: those of the container, and those of one element. -/
def Storage.rank : Storage → Nat
  | none => 0
  | value e | valueRef e => e.rank
  | buffer e dims _ | texture e dims _ => dims + e.rank

theorem Storage.rank_ofValue {t : KernelType} {a : Access} (h : ofValue t a ≠ none) :
    (ofValue t a).rank = t.rank := by
  cases a with
  | none => exact absurd rfl h
  | _ => rfl

theorem Storage.rank_ofBuffer {b : BufferValue} {a : Access} (h : ofBuffer b a ≠ none) :
    (ofBuffer b a).rank = b.container.shape.length := by
  have hshape : b.container.shape.length = b.extents.length + b.element.rank := List.length_append
  cases a with
  | none => exact absurd rfl h
  | _ => exact hshape.symm

/-- Every slot that is stored has room for a value of `rank` dimensions, and for no more. -/
def CallData.Holds (rank : Nat) (d : CallData) : Prop :=
  ∀ slot ∈ Slot.all, d.storage slot ≠ .none → (d.storage slot).rank = rank

instance (rank : Nat) (d : CallData) : Decidable (d.Holds rank) :=
  inferInstanceAs (Decidable (∀ slot ∈ Slot.all, _))

theorem CallData.holds_iff {rank : Nat} {d : CallData} :
    d.Holds rank ↔ (d.storage .primal ≠ .none → (d.storage .primal).rank = rank) ∧
      (d.storage .derivative ≠ .none → (d.storage .derivative).rank = rank) := by
  rw [Holds, Slot.all, List.forall_mem_cons, List.forall_mem_singleton]

/-! ## Leaves -/

/-- Whether a value is stored as what an invocation receives of it. -/
def Marshall.storedAsReceived : Marshall → Bool
  | value _ | valueRef _ => true
  | _ => false

namespace Node

variable {n : Node} {d : CallData}

/-- None of the value's dimensions is an axis of the dispatch, and none is hidden in a resource. -/
def ReceivedWhole (n : Node) : Prop :=
  n.mapping.axes = [] ∧
    ∀ t, n.vectorType? = some t → t.isResource → n.marshall.declaredShape = []

/-- The types of containers name the elements of their own, not those received. -/
theorem holds_of_callData (hm : n.marshall.storedAsReceived = false) (hd : n.callData = .ok d) :
    d.Holds n.marshall.declaredShape.length := by
  rw [callData] at hd
  rw [CallData.holds_iff]
  generalize n.marshall = m at hd hm ⊢
  cases m with
  | value t | valueRef t => cases hm
  | diffPair t needsGrad =>
    obtain ⟨u, -, hd⟩ := bind_eq_ok_iff.mp hd
    cases hd
    exact ⟨Storage.rank_ofValue, Storage.rank_ofValue⟩
  | buffer b =>
    simp only at hd
    split at hd
    · cases hd
    · cases hd
      exact ⟨Storage.rank_ofBuffer, fun hnone ↦ absurd rfl hnone⟩
  | diffBuffer b needsGrad =>
    obtain ⟨u, -, hd⟩ := bind_eq_ok_iff.mp hd
    cases hd
    exact ⟨Storage.rank_ofBuffer, Storage.rank_ofBuffer⟩
  | texture x =>
    cases hd
    have hshape : x.container.shape.length = x.size.length + x.texel.rank := List.length_append
    exact ⟨fun _ ↦ hshape.symm, fun hnone ↦ absurd rfl hnone⟩
  | dict => cases hd

/-- A plain value is stored in one slot, with room for what is received. -/
theorem storage_of_storedAsReceived (hm : n.marshall.storedAsReceived) (hd : n.callData = .ok d) :
    ∃ t, n.vectorType? = some t ∧ d.storage .derivative = .none ∧
      (d.storage .primal ≠ .none → (d.storage .primal).rank = t.rank) := by
  rw [callData] at hd
  generalize n.marshall = m at hd hm
  cases m with
  | value u =>
    obtain ⟨t, ht, hd⟩ := bind_eq_ok_iff.mp hd
    cases hd
    exact ⟨t, receivedType_eq_ok_iff.mp ht, rfl, fun _ ↦ rfl⟩
  | valueRef u =>
    obtain ⟨t, ht, hd⟩ := bind_eq_ok_iff.mp hd
    cases hd
    exact ⟨t, receivedType_eq_ok_iff.mp ht, rfl, Storage.rank_ofValue⟩
  | _ => cases hm

/-- The type received has all dimensions of the value exactly if the value is received whole. -/
theorem Balanced.rank_eq_iff (h : n.Balanced) {t : KernelType} (ht : n.vectorType? = some t) :
    t.rank = n.marshall.declaredShape.length ↔ n.ReceivedWhole := by
  obtain ⟨-, u, hu, hbalances⟩ := h
  obtain rfl : t = u := by simpa [ht] using hu
  have hopaque : t.isResource → t.rank = 0 := by
    cases t with
    | buffer | texture => exact fun _ ↦ rfl
    | _ => exact nofun
  have haxes : n.mapping.axes = [] ↔ n.mapping.rank = 0 := List.length_eq_zero_iff.symm
  rw [ReceivedWhole, haxes, ht]
  constructor
  · intro hrank
    refine ⟨?_, ?_⟩
    · rcases hbalances with hsum | ⟨-, hzero⟩
      · omega
      · exact hzero
    · rintro _ ⟨⟩ hresource
      rw [← List.length_eq_zero_iff, ← hrank]
      exact hopaque hresource
  · rintro ⟨hzero, hwhole⟩
    rcases hbalances with hsum | ⟨hresource, -⟩
    · omega
    · rw [hwhole t rfl hresource]
      exact hopaque hresource

theorem Balanced.holds_iff (h : n.Balanced) (hd : n.callData = .ok d) :
    d.Holds n.marshall.declaredShape.length ↔
      (n.marshall.storedAsReceived → d.storage .primal ≠ .none → n.ReceivedWhole) := by
  by_cases hm : n.marshall.storedAsReceived
  · obtain ⟨t, ht, hderivative, hprimal⟩ := storage_of_storedAsReceived hm hd
    rw [CallData.holds_iff, ← h.rank_eq_iff ht, hderivative]
    constructor
    · rintro ⟨hholds, -⟩ - hstored
      rw [← hprimal hstored]
      exact hholds hstored
    · intro hwhole
      refine ⟨fun hstored ↦ ?_, fun hnone ↦ absurd rfl hnone⟩
      rw [hprimal hstored]
      exact hwhole hm hstored
  · exact iff_of_true (holds_of_callData (by simpa using hm) hd) fun hyes ↦ absurd hyes hm

end Node

/-! ## Built calls -/

namespace Call

/-- **When the call data holds a value.** Every leaf of a built call, wherever its type comes from, is
declared with storage of its own. The slots that are stored have room for the whole value, except
those of a plain value or a reference to one of which some dimension is an axis of the dispatch, or
which a kernel takes as a resource. -/
theorem holds_iff_of_build {lookup : Lookup} {settings : Settings} {f : Function} {a : Arguments}
    {o : Vectorization} {b : BuiltCall} (h : build lookup settings f a o = .ok b) :
    ∀ n ∈ b.call.leaves, ∃ d isRoot, n.callData = .ok d ∧
      (Variable.leaf n).typeCommands b.gridRank isRoot =
        .ok (d.commands n.name ++ [mappingConstant n.name n.mapping.axes]) ∧
      (d.Holds n.marshall.declaredShape.length ↔
        (n.marshall.storedAsReceived → d.storage .primal ≠ .none → n.ReceivedWhole)) := by
  intro n hn
  obtain ⟨v, hv, hnv⟩ := List.mem_flatMap.mp hn
  obtain ⟨isRoot, own, hown⟩ := typeCommands_of_build h hv (Variable.mem_leaves_iff.mp hnv)
  obtain ⟨d, hd, rfl⟩ := Node.leafCommands_eq_ok hown
  exact ⟨d, isRoot, hd, hown, (balanced_of_build h n hn).holds_iff hd⟩

/-- A kernel that moves a point. -/
def shift : Function where
  name := "shift"
  params := [{ name := "at", type := .vector .float 3, modifiers := { inputOutput := true } },
    { name := "by", type := .vector .float 3 }, { name := "length", type := .scalar .float }]

/-- A grid of points, one vector for all of them, and a grid of numbers that each point is combined
with. -/
def movedGrid : Arguments where
  args := [.buffer { element := .vector .float 3, extents := [8], writable := true },
    .vector .float [1, 0, 0], .buffer { element := .scalar .float, extents := [4, 8] }]

/-- The vector is received whole, and so stored whole. -/
theorem holds_iff_movedGrid :
    ∃ b, build ⟨.standard, .builtin⟩ {} shift movedGrid {} = .ok b ∧
      ∀ n ∈ b.call.leaves, ∃ d isRoot, n.callData = .ok d ∧
        (Variable.leaf n).typeCommands b.gridRank isRoot =
          .ok (d.commands n.name ++ [mappingConstant n.name n.mapping.axes]) ∧
        (d.Holds n.marshall.declaredShape.length ↔
          (n.marshall.storedAsReceived → d.storage .primal ≠ .none → n.ReceivedWhole)) := by
  have hbuilds : (build ⟨.standard, .builtin⟩ {} shift movedGrid {}).toOption.isSome := by
    decide +kernel
  obtain ⟨b, hb⟩ := Option.isSome_iff_exists.mp hbuilds
  have h := toOption_eq_some_iff.mp hb
  exact ⟨b, h, holds_iff_of_build h⟩

/-- A kernel that takes a number. -/
def halve : Function where
  name := "halve"
  params := [{ name := "x", type := .scalar .float }]

/-- Three numbers in one value. -/
def triple : Arguments where
  args := [.vector .float [1, 2, 3]]

/-- **Room for one component of three.** A vector that a kernel takes number by number is stored as
one number. -/
theorem exists_not_holds : ∃ b, build ⟨.standard, .builtin⟩ {} halve triple {} = .ok b ∧
    ∃ n ∈ b.call.leaves, ∃ d, n.pin? = none ∧ n.callData = .ok d ∧
      ¬ d.Holds n.marshall.declaredShape.length :=
  ⟨_, rfl, _, List.mem_cons_self, _, rfl, rfl, by decide⟩

end Call

end KernelCall
