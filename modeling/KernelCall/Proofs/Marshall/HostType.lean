import KernelCall.Call.Vectorize
import KernelCall.Proofs.Marshall.Alike

/-!
# Host types as pins

A variable can be pinned to the kernel type that a kind of host value stands for. What a bare kind
stands for is up to its factory, which has no value to look at then. Containers and references are
refused, for their kernel types differ from value to value. A pair is always one of `float`. But
numbers and vectors of all kinds have one factory, and without a value it takes each of them for a
`float`, which is right for that kind alone.
-/

namespace KernelCall

namespace MarshallRegistry

/-- Without a value numbers, vectors and pairs stand for a `float`, and no other kind stands for
anything. -/
theorem forKind_cases (k : HostKind) :
    (k ∈ [.int, .float, .bool, .vector, .diffPair] ∧
      ∃ bare, builtin.forKind k = .ok bare ∧ bare.kernelType = .scalar .float) ∨
    (k ∈ [.valueRef, .buffer, .diffBuffer, .texture, .dict] ∧
      ∃ e, builtin.forKind k = .error e) := by
  cases k with
  | int | float | bool | vector | diffPair => exact Or.inl ⟨by decide, _, rfl, rfl⟩
  | valueRef | buffer | diffBuffer | texture | dict => exact Or.inr ⟨by decide, _, rfl⟩

end MarshallRegistry

namespace HostKind

variable {k : HostKind}

/-- The kernel type of all values of a kind, if they have one in common. -/
def commonType? : HostKind → Option KernelType
  | int => some (.scalar .int)
  | float | diffPair => some (.scalar .float)
  | bool => some (.scalar .bool)
  | dict => some (.interface "dict")
  | vector | valueRef | buffer | diffBuffer | texture => none

theorem kernelType_of_commonType? {x : HostValue} {m : Marshall} {t : KernelType}
    (hx : MarshallRegistry.builtin.forValue x = .ok m) (ht : x.kind.commonType? = some t) :
    m.kernelType = t := by
  cases x with
  | int | float | bool | diffPair | dict =>
    cases hx
    cases ht
    rfl
  | vector | valueRef | buffer | diffBuffer | texture => cases ht

/-- The kernel type of values of the kind can be known without a value: they all have the same. -/
def Uniform (k : HostKind) : Prop :=
  ∀ x y : HostValue, x.kind = k → y.kind = k → ∀ m m',
    MarshallRegistry.builtin.forValue x = .ok m → MarshallRegistry.builtin.forValue y = .ok m' →
      m.kernelType = m'.kernelType

theorem uniform_iff : k.Uniform ↔ k.commonType?.isSome := by
  constructor
  · intro h
    cases k with
    | int | float | bool | diffPair | dict => rfl
    | vector =>
      exact absurd (h (.vector .float [0]) (.vector .float [0, 0]) rfl rfl _ _ rfl rfl) (by decide)
    | valueRef =>
      exact absurd (h (.valueRef (.int 0)) (.valueRef (.float 0)) rfl rfl _ _ rfl rfl) (by decide)
    | buffer =>
      exact absurd (h (.buffer ⟨.scalar .int, [], false⟩) (.buffer ⟨.scalar .float, [], false⟩)
        rfl rfl _ _ rfl rfl) (by decide)
    | diffBuffer =>
      exact absurd (h (.diffBuffer ⟨.scalar .int, [], false⟩ true)
        (.diffBuffer ⟨.scalar .float, [], false⟩ true) rfl rfl _ _ rfl rfl) (by decide)
    | texture =>
      exact absurd (h (.texture ⟨.scalar .int, 1, [1], false⟩)
        (.texture ⟨.scalar .float, 1, [1], false⟩) rfl rfl _ _ rfl rfl) (by decide)
  · rintro hsome x y rfl hy m m' hm hm'
    obtain ⟨t, ht⟩ := Option.isSome_iff_exists.mp hsome
    rw [kernelType_of_commonType? hm ht, kernelType_of_commonType? hm' (hy ▸ ht)]

/-- Only of vectors would a kernel type have to be known that cannot be. -/
theorem uniform_or_refused_iff :
    (k.Uniform ∨ ∃ e, MarshallRegistry.builtin.forKind k = .error e) ↔ k ≠ .vector := by
  rw [uniform_iff]
  cases k with
  | int | float | bool | diffPair => exact iff_of_true (Or.inl rfl) (by decide)
  | valueRef | buffer | diffBuffer | texture | dict =>
    exact iff_of_true (Or.inr ⟨_, rfl⟩) (by decide)
  | vector => exact iff_of_false (fun h ↦ h.elim nofun fun ⟨_, he⟩ ↦ nomatch he) (by decide)

end HostKind

theorem MarshallRegistry.kernelType_eq_float_iff {x : HostValue} {m : Marshall}
    (hx : builtin.forValue x = .ok m) (hkind : x.kind ∈ [.int, .float, .bool, .vector, .diffPair]) :
    m.kernelType = .scalar .float ↔ x.kind ∉ [.int, .bool, .vector] := by
  cases x with
  | int | bool =>
    cases hx
    exact iff_of_false (fun h ↦ by cases h) (by simp [HostValue.kind])
  | float | diffPair =>
    cases hx
    exact iff_of_true rfl (by simp [HostValue.kind])
  | vector s components =>
    obtain ⟨t, ht, rfl⟩ := map_eq_ok_iff.mp hx
    rw [MarshallFactory.plainType] at ht
    split at ht <;> cases ht
    exact iff_of_false (fun h ↦ by cases h) (by simp [HostValue.kind])
  | valueRef | buffer | diffBuffer | texture | dict => simp [HostValue.kind] at hkind

/-- **What an argument becomes when it is pinned to the host type of its own kind.** Let a node carry
the marshall of a value, and pin it to the kind of this value. If the bare kind has a marshall, the
node receives the kernel type of that; and this is the kernel type of the value unless the value is
an integer, a truth value or a vector. If the bare kind is refused, so is the pin. Refused are
kinds whose values differ in kernel type, all but vectors, and dictionaries. -/
theorem Node.pin_hostKind_of_forValue (layout : Layout) {x : HostValue} {n : Node}
    (hx : MarshallRegistry.builtin.forValue x = .ok n.marshall) :
    (∀ bare, MarshallRegistry.builtin.forKind x.kind = .ok bare →
      (∃ n', n.pin ⟨layout, .builtin⟩ (.hostKind x.kind) = .ok n' ∧
        n'.vectorType? = some bare.kernelType) ∧
      (bare.kernelType = n.marshall.kernelType ↔ x.kind ∉ [.int, .bool, .vector])) ∧
    ((∃ e, MarshallRegistry.builtin.forKind x.kind = .error e) →
      ∃ e, n.pin ⟨layout, .builtin⟩ (.hostKind x.kind) = .error e) ∧
    ∀ k : HostKind, (k.Uniform ∨ ∃ e, MarshallRegistry.builtin.forKind k = .error e) ↔
      k ≠ .vector := by
  refine ⟨fun bare hbare ↦ ⟨?_, ?_⟩, ?_, fun _ ↦ HostKind.uniform_or_refused_iff⟩
  · rw [Node.pin, Pin.vectorType, hbare]
    exact ⟨_, rfl, rfl⟩
  · rcases MarshallRegistry.forKind_cases x.kind with ⟨hkind, float, hfloat, htype⟩ | ⟨-, e, he⟩
    · rw [hbare] at hfloat
      cases hfloat
      rw [htype, eq_comm, MarshallRegistry.kernelType_eq_float_iff hx hkind]
    · rw [hbare] at he
      cases he
  · rintro ⟨e, he⟩
    rw [Node.pin, Pin.vectorType, he]
    exact ⟨_, rfl⟩

/-- A node that carries a point. -/
def pointNode : Node where
  name := "p"
  path := "p"
  marshall := .value (.vector .float 3)

/-- A point is pinned to the host type of vectors. -/
theorem Node.pin_hostKind_pointNode :
    MarshallRegistry.builtin.forValue (.vector .float [1, 2, 3]) = .ok pointNode.marshall ∧
    (∀ bare, MarshallRegistry.builtin.forKind .vector = .ok bare →
      (∃ n', pointNode.pin ⟨.standard, .builtin⟩ (.hostKind .vector) = .ok n' ∧
        n'.vectorType? = some bare.kernelType) ∧
      (bare.kernelType = pointNode.marshall.kernelType ↔
        HostKind.vector ∉ [.int, .bool, .vector])) ∧
    ((∃ e, MarshallRegistry.builtin.forKind .vector = .error e) →
      ∃ e, pointNode.pin ⟨.standard, .builtin⟩ (.hostKind .vector) = .error e) ∧
    ∀ k : HostKind, (k.Uniform ∨ ∃ e, MarshallRegistry.builtin.forKind k = .error e) ↔
      k ≠ .vector :=
  ⟨rfl, @pin_hostKind_of_forValue .standard (.vector .float [1, 2, 3]) pointNode rfl⟩

/-- **A host type that means another.** An integer is of type `int`, and the host type of integers
stands for `float`. A point is of type `float3`, and the host type of vectors, whose size cannot be
known, is not refused. -/
theorem exists_retyped :
    (∃ bare m, MarshallRegistry.builtin.forKind (HostValue.int 1).kind = .ok bare ∧
      MarshallRegistry.builtin.forValue (.int 1) = .ok m ∧ bare.kernelType ≠ m.kernelType) ∧
    ¬ HostKind.vector.Uniform ∧ ∃ bare, MarshallRegistry.builtin.forKind .vector = .ok bare := by
  refine ⟨⟨_, _, rfl, rfl, by decide⟩, ?_, _, rfl⟩
  rw [HostKind.uniform_iff]
  exact nofun

end KernelCall
