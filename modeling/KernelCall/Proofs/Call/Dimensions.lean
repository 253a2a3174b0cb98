import KernelCall.Proofs.Call.Built
import KernelCall.Proofs.KernelType.Reduction

/-!
# The account of dimensions

The dimensions of a host value go two ways: some become axes of the dispatch, the others stay in the
type that an invocation receives. The split is made in several places. Axes that a caller names are
taken off the value and the type is what is left; a type that is named, resolved or returned comes
first, and the dimensions it lacks are counted. The account is the same for all of them: nothing of
the value is lost and nothing counted twice. Only a resource is opaque. It is handed over as a
handle, all its dimensions with it, and takes none of the dispatch.
-/

namespace KernelCall

/-! ## Marshalls -/

/-- The account of a value of rank `rank`, of which `taken` dimensions go to the dispatch while an
invocation receives the rest as `t`. -/
def Balances (rank taken : Nat) (t : KernelType) : Prop :=
  taken + t.rank = rank ∨ t.isResource ∧ taken = 0

instance (rank taken : Nat) (t : KernelType) : Decidable (Balances rank taken t) :=
  inferInstanceAs (Decidable (_ ∨ _))

/-- The dimensions of a container itself go all together, those of an element one by one. -/
theorem Container.balances_of_reduce {c : Container} (hc : c.type.isResource) {count : Nat}
    {t : KernelType} (h : c.reduce count = .ok t) : Balances c.shape.length count t := by
  rw [reduce] at h
  split at h
  · next hzero =>
    cases h
    exact Or.inr ⟨hc, hzero⟩
  split at h
  · cases h
  · next hdims =>
    split at h
    · next u hu =>
      cases h
      have hrank := KernelType.rank_of_reduce? hu
      have hshape : c.shape.length = c.dims + c.element.rank := List.length_append
      apply Or.inl
      omega
    · cases h

namespace Marshall

theorem balances_of_reduceValue {t u : KernelType} {count : Nat}
    (h : reduceValue t count = .ok u) : Balances t.shape.length count u := by
  rw [reduceValue] at h
  split at h
  · next hu =>
    cases h
    exact Or.inl (KernelType.rank_of_reduce? hu)
  · cases h

/-- Axes that are taken off a value are missing in the type that is left. -/
theorem balances_of_reduce {m : Marshall} {count : Nat} {t : KernelType}
    (h : m.reduce count = .ok t) : Balances m.declaredShape.length count t := by
  cases m with
  | value u | valueRef u | diffPair u _ => exact balances_of_reduceValue h
  | buffer b | diffBuffer b _ => exact Container.balances_of_reduce (c := b.container) rfl h
  | texture x => exact Container.balances_of_reduce (c := x.container) rfl h
  | dict => cases h

/-- What a type lacks of a value is left to the dispatch. A dictionary is not received as a value:
its marshall answers for it that nothing is left. -/
theorem balances_of_dimensionality {m : Marshall} (hm : m ≠ .dict) {t : KernelType} {count : Nat}
    (h : m.dimensionality t = .ok count) : Balances m.declaredShape.length count t := by
  have hleft : dimensionsLeft m.declaredShape.length t = .ok count := by
    cases m with
    | dict => exact absurd rfl hm
    | _ => exact h
  rw [dimensionsLeft] at hleft
  split at hleft
  · next hresource =>
    cases hleft
    exact Or.inr ⟨hresource, rfl⟩
  split at hleft
  · next hle =>
    cases hleft
    exact Or.inl (Nat.sub_add_cancel hle)
  · cases hleft

end Marshall

/-! ## Leaves -/

namespace Node

/-- Every dimension of the node's value is either mapped onto an axis or received by an invocation,
and none is both. A resource is received whole, whatever its dimensions, and mapped onto no axis. -/
def Balanced (n : Node) : Prop :=
  n.mapping.isResolved ∧ ∃ t, n.vectorType? = some t ∧
    Balances n.marshall.declaredShape.length n.mapping.rank t

theorem rank_settledMapping {n : Node} (hpin : ∀ l, n.pin? ≠ some (.axes l)) (rank gridRank : Nat) :
    (n.settledMapping rank gridRank).rank = rank := by
  rw [settledMapping]
  split
  · next l hl => exact absurd hl (hpin l)
  · exact List.length_range' ..

/-- Settling a leaf balances it, whichever way its type is found. -/
theorem balanced_of_settledLeaf? {lookup : Lookup} {settings : Settings} {gridRank : Nat}
    {n m : Node} (hdict : n.marshall ≠ .dict)
    (h : n.settledLeaf? lookup settings gridRank = some m) : m.Balanced := by
  obtain ⟨t, rank, ht, hrank, -, rfl⟩ := settledLeaf?_eq_some_iff.mp h
  have hresolved : (n.settledMapping rank gridRank).isResolved := by
    rw [settledMapping]
    split <;> rfl
  refine ⟨hresolved, t, rfl, ?_⟩
  change Balances n.marshall.declaredShape.length (n.settledMapping rank gridRank).rank t
  by_cases hpin : ∃ l, n.pin? = some (.axes l)
  · obtain ⟨l, hl⟩ := hpin
    rw [settledType?, hl] at ht
    rw [settledMapping, hl]
    exact Marshall.balances_of_reduce (toOption_eq_some_iff.mp ht)
  · have hpin : ∀ l, n.pin? ≠ some (.axes l) := fun l hl ↦ hpin ⟨l, hl⟩
    have hcount : (n.marshall.dimensionality t).toOption = some rank := by
      rw [settledRank?, ht, Option.bind_some] at hrank
      split at hrank
      · next l hl => exact absurd hl (hpin l)
      · exact hrank
    rw [rank_settledMapping hpin]
    exact Marshall.balances_of_dimensionality hdict (toOption_eq_some_iff.mp hcount)

/-- There is no code for a leaf that carries a dictionary. -/
theorem marshall_ne_dict_of_leafCommands {n : Node} {isRoot : Bool} {commands : List Code.Command}
    (h : n.leafCommands isRoot = .ok commands) : n.marshall ≠ .dict := by
  obtain ⟨d, hd, -⟩ := leafCommands_eq_ok h
  intro hdict
  rw [callData, hdict] at hd
  cases hd

end Node

namespace Call

variable {lookup : Lookup} {settings : Settings} {f : Function} {a : Arguments} {o : Vectorization}
  {b : BuiltCall}

theorem marshall_ne_dict_of_build (h : build lookup settings f a o = .ok b) :
    ∀ n ∈ b.call.leaves, n.marshall ≠ .dict := by
  intro n hn
  obtain ⟨v, hv, hnv⟩ := List.mem_flatMap.mp hn
  obtain ⟨isRoot, own, hown⟩ := typeCommands_of_build h hv (Variable.mem_leaves_iff.mp hnv)
  exact Node.marshall_ne_dict_of_leafCommands hown

/-- **No dimension is lost or counted twice.** For every leaf of a built call, whether its type was
resolved, pinned by axes, pinned by name or returned, the axes it is mapped onto and the dimensions
of the type an invocation receives add up to the dimensions of its value, unless it is received as a
resource and mapped onto no axis. -/
theorem balanced_of_build (h : build lookup settings f a o = .ok b) :
    ∀ n ∈ b.call.leaves, n.Balanced := by
  intro n hn
  obtain ⟨v, hv, hnv⟩ := List.mem_flatMap.mp hn
  have hsettled := (settled_of_build h).leaf v hv n (Variable.mem_leaves_iff.mp hnv)
  exact Node.balanced_of_settledLeaf? (marshall_ne_dict_of_build h n hn) hsettled

/-- A kernel that takes a point and a picture, and returns a number. -/
def sample : Function where
  name := "sample"
  params := [{ name := "at", type := .vector .float 2 },
    { name := "picture", type := .texture (.vector .float 4) 2 false }]
  returnType := some (.scalar .float)

/-- A grid of points, one picture for all of them, and room for a grid of numbers. -/
def sampledGrid : Arguments where
  args := [.buffer { element := .vector .float 2, extents := [8, 4] },
    .texture { texel := .vector .float 4, dims := 2, size := [64, 64] }]
  kwargs := [("_result", .buffer { element := .scalar .float, extents := [4, 8], writable := true })]

/-- The points are pinned to axes, the picture is handed over whole, the numbers are returned. -/
theorem balanced_sampledGrid :
    ∃ b, build ⟨.standard, .builtin⟩ {} sample sampledGrid { args := [.pin (.axes [1, 0])] } = .ok b ∧
      ∀ n ∈ b.call.leaves, n.Balanced := by
  have hbuilds : (build ⟨.standard, .builtin⟩ {} sample sampledGrid
      { args := [.pin (.axes [1, 0])] }).toOption.isSome := by decide +kernel
  obtain ⟨b, hb⟩ := Option.isSome_iff_exists.mp hbuilds
  have h := toOption_eq_some_iff.mp hb
  exact ⟨b, h, balanced_of_build h⟩

end Call

end KernelCall
