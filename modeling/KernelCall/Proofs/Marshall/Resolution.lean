import KernelCall.Proofs.KernelType.Reduction
import KernelCall.Proofs.Marshall.Alike

/-!
# What values can be received as

A parameter that is no resource takes a value whole, as the interface that the value stands for, or
part by part, as a type that is left when dimensions are stripped from the elements; and a number as a
number of another type. The dimensions that are counted afterwards are the ones that have been
stripped: the shape of what is received is that of the value behind them.

There are two exceptions. A container without dimensions has one element, but removing none of its
dimensions leaves the container, so the search for the parameter's type misses the element. And a
resource that is the element of a container is counted like the container itself, as if nothing were
left to the dispatch.
-/

namespace KernelCall

variable {bound t v : KernelType}

namespace Container

variable {c : Container}

/-- Once the dimensions of a container are stripped, the rest is stripped from its elements. -/
theorem reduce_eq_ok_iff {count : Nat} (hcount : c.dims + count ≠ 0) :
    c.reduce (c.dims + count) = .ok t ↔ c.element.reduce? count = some t := by
  have hle : ¬ c.dims + count < c.dims := by omega
  rw [reduce, if_neg hcount, if_neg hle, Nat.add_sub_cancel_left]
  cases c.element.reduce? count <;> simp

/-- The elements of a container are searched for a type that is stripped from them. What is not found
is the element itself, if the container has no dimensions. -/
theorem holds_iff (hc : c.type.isResource) (hbound : bound.isResource = false) :
    c.holds bound ↔ (∃ count, c.element.reduce? count = some bound) ∧
      ¬ (c.extents = [] ∧ bound = c.element) := by
  have hdims : c.extents = [] ↔ c.dims = 0 := List.length_eq_zero_iff.symm
  rw [holds, List.any_eq_true]
  constructor
  · rintro ⟨count, hcount, h⟩
    obtain ⟨hfrom, -⟩ := List.mem_range'_1.mp hcount
    obtain ⟨rest, rfl⟩ := Nat.exists_eq_add_of_le hfrom
    by_cases hzero : c.dims + rest = 0
    · -- what is found is the container, and that is a resource
      rw [hzero, reduce, if_pos rfl] at h
      rw [← eq_of_beq h, hc] at hbound
      cases hbound
    · cases hfound : c.reduce (c.dims + rest) with
      | error error =>
        rw [hfound] at h
        cases h
      | ok t =>
        rw [hfound] at h
        obtain rfl : t = bound := eq_of_beq h
        have hrest := (reduce_eq_ok_iff hzero).mp hfound
        refine ⟨⟨rest, hrest⟩, ?_⟩
        rintro ⟨hnone, rfl⟩
        rw [KernelType.reduce?_eq_self_iff.mp hrest, hdims.mp hnone] at hzero
        exact hzero rfl
  · rintro ⟨⟨count, hcount⟩, hother⟩
    have hrank := KernelType.rank_of_reduce? hcount
    have hzero : c.dims + count ≠ 0 := by
      intro hzero
      obtain ⟨hnone, rfl⟩ := Nat.add_eq_zero_iff.mp hzero
      rw [KernelType.reduce?_zero] at hcount
      exact hother ⟨hdims.mpr hnone, (Option.some.inj hcount).symm⟩
    refine ⟨c.dims + count, List.mem_range'_1.mpr ⟨by omega, by omega⟩, ?_⟩
    rw [(reduce_eq_ok_iff hzero).mpr hcount]
    exact beq_self_eq_true bound

/-- **A container is received element by element**, unless it has no dimensions and would be received
as its one element. -/
theorem resolve_eq_ok_iff (hc : c.type.isResource) (hbound : bound.isResource = false) :
    c.resolve bound = .ok v ↔ v = (if bound.isInterface then c.element else bound) ∧
      (bound.isInterface ∨ ∃ count, c.element.reduce? count = some bound) ∧
        ¬ (c.extents = [] ∧ bound.isInterface = false ∧ bound = c.element) := by
  rw [resolve]
  by_cases hinterface : bound.isInterface
  · simp [hinterface, eq_comm]
  · rw [if_neg hinterface, if_neg (by simp [hbound]), if_neg hinterface]
    have hholds := holds_iff hc hbound
    rw [Bool.not_eq_true] at hinterface
    by_cases hfound : c.holds bound
    · obtain ⟨hstripped, hother⟩ := hholds.mp hfound
      rw [if_pos hfound, Except.ok.injEq, eq_comm]
      refine (and_iff_left ⟨Or.inr hstripped, fun h ↦ hother ⟨h.1, h.2.2⟩⟩).symm
    · rw [if_neg hfound]
      refine iff_of_false (by simp) ?_
      rintro ⟨-, hstripped, hother⟩
      refine hfound (hholds.mpr ⟨?_, fun h ↦ hother ⟨h.1, hinterface, h.2⟩⟩)
      rcases hstripped with h | h
      · rw [hinterface] at h
        cases h
      · exact h

end Container

namespace Marshall

/-- **A plain value is received whole or part by part**, and a number as any number. -/
theorem resolveValue_eq_ok_iff : resolveValue t bound = .ok v ↔
    v = (if bound.isInterface then t else bound) ∧ (bound.isInterface ∨
      (∃ count, t.reduce? count = some bound) ∨ (t.isScalar ∧ bound.isScalar)) := by
  have hparts : ((List.range (t.rank + 1)).any fun count ↦ t.reduce? count == some bound) ↔
      ∃ count, t.reduce? count = some bound := by
    rw [List.any_eq_true]
    constructor
    · rintro ⟨count, -, h⟩
      exact ⟨count, eq_of_beq h⟩
    · rintro ⟨count, h⟩
      have hrank := KernelType.rank_of_reduce? h
      exact ⟨count, List.mem_range.mpr (by omega), by rw [h, beq_self_eq_true]⟩
  rw [resolveValue]
  by_cases hinterface : bound.isInterface
  · rw [if_pos (by simp [hinterface]), if_pos hinterface, Except.ok.injEq, eq_comm]
    exact (and_iff_left (Or.inl hinterface)).symm
  · rw [if_neg hinterface]
    by_cases hwhole : bound = t
    · -- the type of the value itself, with nothing stripped
      rw [if_pos (by simp [hwhole]), hwhole, Except.ok.injEq, eq_comm]
      exact (and_iff_left (Or.inr (Or.inl ⟨0, KernelType.reduce?_zero t⟩))).symm
    · rw [if_neg (by simp [hinterface, hwhole])]
      by_cases hstripped : ∃ count, t.reduce? count = some bound
      · rw [if_pos (hparts.mpr hstripped), Except.ok.injEq, eq_comm]
        exact (and_iff_left (Or.inr (Or.inl hstripped))).symm
      · rw [if_neg (mt hparts.mp hstripped)]
        by_cases hscalar : t.isScalar ∧ bound.isScalar
        · rw [if_pos (by simp [hscalar]), Except.ok.injEq, eq_comm]
          exact (and_iff_left (Or.inr (Or.inr hscalar))).symm
        · rw [if_neg (by simpa using hscalar)]
          refine iff_of_false nofun ?_
          rintro ⟨-, h | h | h⟩
          · exact hinterface h
          · exact hstripped h
          · exact hscalar h

/-! ## Resolution and dimensions -/

variable {m : Marshall}

/-- The container that is carried, if it is one. -/
def container? : Marshall → Option Container
  | buffer b | diffBuffer b _ => some b.container
  | texture t => some t.container
  | _ => none

/-- A container without dimensions of its own. -/
def Dimensionless (m : Marshall) : Prop := ∃ c ∈ m.container?, c.extents = []

/-- The value can be taken as an interface, as its elements with any number of dimensions stripped, or
as a number if it is one. -/
def Offers (m : Marshall) (bound : KernelType) : Prop :=
  bound.isInterface ∨ (∃ count, m.elementType.reduce? count = some bound) ∨
    (m.container? = none ∧ m.elementType.isScalar ∧ bound.isScalar)

/-- What an invocation receives of a value: the element for an interface. -/
def received (m : Marshall) (bound : KernelType) : KernelType :=
  if bound.isInterface then m.elementType else bound

/-- A marshall other than that of a dictionary carries a container or a plain value. -/
theorem container_cases (hm : m ≠ .dict) :
    (∃ c, m.container? = some c ∧ c.type.isResource ∧ m.elementType = c.element ∧
      m.declaredShape = c.shape ∧ m.resolve = c.resolve) ∨
    (m.container? = none ∧ m.declaredShape = m.elementType.shape ∧
      m.resolve = resolveValue m.elementType) := by
  cases m with
  | dict => exact absurd rfl hm
  | buffer b | diffBuffer b => exact Or.inl ⟨b.container, rfl, rfl, rfl, rfl, rfl⟩
  | texture t => exact Or.inl ⟨t.container, rfl, rfl, rfl, rfl, rfl⟩
  | value t | valueRef t | diffPair t => exact Or.inr ⟨rfl, rfl, rfl⟩

/-- **What is resolved** is what a value offers, but for the one element of a container without
dimensions. -/
theorem resolve_eq_ok_iff (hm : m ≠ .dict) (hbound : bound.isResource = false) :
    m.resolve bound = .ok v ↔ v = m.received bound ∧ m.Offers bound ∧
      ¬ (m.Dimensionless ∧ bound.isInterface = false ∧ bound = m.elementType) := by
  rw [received, Offers, Dimensionless]
  rcases container_cases hm with ⟨c, hc, hresource, helement, -, hresolve⟩ | ⟨hc, -, hresolve⟩
  · rw [hresolve, Container.resolve_eq_ok_iff hresource hbound, helement, hc]
    simp
  · rw [hresolve, resolveValue_eq_ok_iff, hc]
    simp

theorem dimensionality_eq (hm : m ≠ .dict) (t : KernelType) :
    m.dimensionality t = dimensionsLeft m.declaredShape.length t := by
  cases m with
  | dict => exact absurd rfl hm
  | _ => rfl

theorem exists_shape_of_offers (hm : m ≠ .dict) (h : m.Offers bound) :
    ∃ count ≤ m.declaredShape.length, (m.received bound).shape = m.declaredShape.drop count := by
  rcases container_cases hm with ⟨c, hc, -, helement, hshape, -⟩ | ⟨hc, hshape, -⟩
  · have hlength : c.shape.length = c.dims + c.element.rank := List.length_append
    have hinner : ∀ count, c.shape.drop (c.dims + count) = c.element.shape.drop count := by
      intro count
      rw [Container.shape, ← List.drop_drop]
      exact congrArg (List.drop count) List.drop_left
    rw [received, hshape, helement]
    by_cases hinterface : bound.isInterface
    · rw [if_pos hinterface]
      exact ⟨c.dims, by omega, (hinner 0).symm⟩
    · rw [if_neg hinterface]
      rcases h with h | ⟨count, h⟩ | ⟨h, -⟩
      · exact absurd h hinterface
      · rw [helement] at h
        have hrank := KernelType.rank_of_reduce? h
        refine ⟨c.dims + count, by omega, ?_⟩
        rw [hinner, KernelType.shape_of_reduce? h]
      · rw [hc] at h
        cases h
  · rw [received, hshape]
    by_cases hinterface : bound.isInterface
    · rw [if_pos hinterface]
      exact ⟨0, Nat.zero_le _, rfl⟩
    · rw [if_neg hinterface]
      rcases h with h | ⟨count, h⟩ | ⟨-, h, hbound⟩
      · exact absurd h hinterface
      · have hrank := KernelType.rank_of_reduce? h
        exact ⟨count, Nat.le.intro hrank, KernelType.shape_of_reduce? h⟩
      · refine ⟨0, Nat.zero_le _, ?_⟩
        rw [KernelType.shape_of_isScalar h, KernelType.shape_of_isScalar hbound]
        rfl

/-- **What is counted** is what stands in front of the shape that is received, but for resources, of
which nothing is counted. -/
theorem exists_dimensionality (hm : m ≠ .dict) {count : Nat}
    (hcount : count ≤ m.declaredShape.length) (hshape : v.shape = m.declaredShape.drop count) :
    ∃ d, m.dimensionality v = .ok d ∧
      (v.shape = m.declaredShape.drop d ↔ (v.isResource → m.declaredShape = [])) := by
  rw [dimensionality_eq hm, dimensionsLeft]
  by_cases hresource : v.isResource
  · refine ⟨0, if_pos hresource, ?_⟩
    rw [KernelType.shape_of_isResource hresource, List.drop_zero, eq_comm]
    exact ⟨fun h _ ↦ h, fun h ↦ h hresource⟩
  · have hrank : v.rank = m.declaredShape.length - count := by
      rw [KernelType.rank, hshape, List.length_drop]
    have hleft : m.declaredShape.length - v.rank = count := by omega
    refine ⟨count, ?_, iff_of_true hshape fun h ↦ absurd h hresource⟩
    rw [if_neg hresource, if_pos (by omega), hleft]

/-- **Resolution and the count of dimensions agree.** Let a value of the host that is no dictionary be
bound to a parameter that is no resource. It can be received if and only if the parameter is an
interface, or is the type of the elements with any number of dimensions stripped, or both are numbers
and the value is a plain one, with one exception: a container without dimensions is not received as
its element. An interface receives the element, any other parameter its own type. The dimensions that
are left to the dispatch can then be counted. Unless what is received is a resource, as an element of
a container may be, they are the ones in front of its shape in the shape of the value; for a resource
that is so only if the value has no shape at all. -/
theorem agrees_of_forValue {x : HostValue} (hm : MarshallRegistry.builtin.forValue x = .ok m)
    (hx : x.kind ≠ .dict) (hbound : bound.isResource = false) :
    ((∃ v, m.resolve bound = .ok v) ↔ m.Offers bound ∧
      ¬ (m.Dimensionless ∧ bound.isInterface = false ∧ bound = m.elementType)) ∧
    ∀ v, m.resolve bound = .ok v → v = m.received bound ∧ ∃ d, m.dimensionality v = .ok d ∧
      (v.shape = m.declaredShape.drop d ↔ (v.isResource → m.declaredShape = [])) := by
  have hm := MarshallRegistry.ne_dict_of_forValue hx hm
  simp only [resolve_eq_ok_iff hm hbound]
  constructor
  · rw [exists_eq_left]
  · rintro v ⟨rfl, hoffers, -⟩
    obtain ⟨count, hcount, hshape⟩ := exists_shape_of_offers hm hoffers
    exact ⟨rfl, exists_dimensionality hm hcount hshape⟩

/-- A grid of points that is received number by number. -/
theorem agrees_pointGrid : ∃ m, MarshallRegistry.builtin.forValue
    (.buffer { element := .vector .float 3, extents := [8, 16] }) = .ok m ∧
      ((∃ v, m.resolve (.scalar .float) = .ok v) ↔ m.Offers (.scalar .float) ∧
        ¬ (m.Dimensionless ∧ (KernelType.scalar .float).isInterface = false ∧
          .scalar .float = m.elementType)) ∧
      ∀ v, m.resolve (.scalar .float) = .ok v → v = m.received (.scalar .float) ∧
        ∃ d, m.dimensionality v = .ok d ∧
          (v.shape = m.declaredShape.drop d ↔ (v.isResource → m.declaredShape = [])) := by
  have hx : (HostValue.buffer { element := .vector .float 3, extents := [8, 16] }).kind ≠
      .dict := by
    decide
  exact ⟨_, rfl, agrees_of_forValue rfl hx rfl⟩

/-- **Where resolution and the count disagree.** A buffer without dimensions offers its one point, and
refuses a parameter of the point's type. And of a row of buffers, each of which is received through an
interface, no dimension is left to the dispatch. -/
theorem exists_disagreement :
    (∃ m, MarshallRegistry.builtin.forValue
      (.buffer { element := .vector .float 3, extents := [] }) = .ok m ∧
        m.Offers (.vector .float 3) ∧ ∀ v, m.resolve (.vector .float 3) ≠ .ok v) ∧
    ∃ m v, MarshallRegistry.builtin.forValue
      (.buffer { element := .buffer (.scalar .float) 1 false, extents := [4] }) = .ok m ∧
        m.resolve (.interface "IDifferentiable") = .ok v ∧ m.dimensionality v = .ok 0 ∧
          v.shape ≠ m.declaredShape.drop 0 := by
  constructor
  · refine ⟨_, rfl, Or.inr (Or.inl ⟨0, rfl⟩), fun v h ↦ ?_⟩
    cases h
  · exact ⟨_, _, rfl, rfl, rfl, by decide⟩

end Marshall

end KernelCall
