import KernelCall.Proofs.Call.Accessors
import KernelCall.Proofs.Call.Storable

/-!
# What is stored and what is exchanged

Single values are stored one by one: a plain value, a reference to one, and the primal of a pair. The
struct around such a field declares a local of the type that an invocation receives and passes it to
the accessors of the field's type. Plain values and references are stored as what is received, so
the two agree for every type that a number is converted to, or that a vector is taken apart to. A
pair is stored as what the host made it of, a `float`, whatever is received of it, and its accessors
pass their `value` on to that storage. There the two agree only if the kernel takes a `float`.
-/

namespace KernelCall

open Code

/-! ## Storage of single values -/

/-- The storage is declared for one value, of the type with this name. -/
def Storage.IsSingle (s : Storage) (name : String) : Prop :=
  s.text = "ValueType<" ++ name ++ ">" ∨ s.text = "RWValueRef<" ++ name ++ ">"

instance (s : Storage) (name : String) : Decidable (s.IsSingle name) :=
  inferInstanceAs (Decidable (_ ∨ _))

theorem Storage.isSingle_iff {s : Storage} {name : String} :
    s.IsSingle name ↔ ∃ e, (s = value e ∨ s = valueRef e) ∧ e.name = name := by
  rw [IsSingle, ← String.toList_inj, ← String.toList_inj]
  cases s with
  | none => simp [text, noStorage]
  | value e => simp [text, String.toList_inj]
  | valueRef e => simp [text, String.toList_inj]
  | buffer e n w => cases w <;> simp [text, KernelType.accessMark]
  | texture e n w => cases w <;> simp [text, KernelType.accessMark]

theorem Storage.isSingle_ofValue_iff {t : KernelType} {a : Access} {name : String} :
    (ofValue t a).IsSingle name ↔ ofValue t a ≠ none ∧ t.name = name := by
  rw [isSingle_iff]
  cases a <;> simp [ofValue]

/-- Whether values are stored one by one. -/
def Marshall.isSingle : Marshall → Bool
  | value _ | valueRef _ | diffPair .. => true
  | _ => false

def Marshall.isPair : Marshall → Bool
  | diffPair .. => true
  | _ => false

/-! ## Accessors -/

theorem storeHead_inj {slot slot' : Slot} {t t' : String} :
    storeHead slot.name t = storeHead slot'.name t' ↔ slot = slot' ∧ t = t' := by
  rw [storeHead, storeHead, Command.line.injEq, ← String.toList_inj]
  cases slot <;> cases slot' <;> simp [Slot.name, String.toList_inj]

theorem target_of_mem_slotAccessors {slot slot' : Slot} {t storage target : String}
    (h : loadHead slot.name t ∈ slotAccessors slot'.name storage target ∨
      storeHead slot.name t ∈ slotAccessors slot'.name storage target) :
    slot = slot' ∧ t = target := by
  have hhead : loadHead slot.name t = loadHead slot'.name target ∨
      storeHead slot.name t = storeHead slot'.name target := by
    rw [slotAccessors] at h
    split at h
    · simp at h
    · simpa [loadHead, storeHead, ← String.toList_inj] using h
  rw [loadHead_inj, storeHead_inj, or_self] at hhead
  exact hhead

/-- The only lines of a pair's struct are those of its accessors. -/
theorem mem_slotAccessors_of_line {p : DifferentialPair} {text : String}
    (h : .line text ∈ p.commands) :
    .line text ∈ slotAccessors "primal" p.primalStorage p.primalTarget ∨
      .line text ∈ slotAccessors "derivative" p.derivativeStorage p.derivativeTarget := by
  simpa [DifferentialPair.commands, Command.declare] using h

/-- The accessors that a leaf's own type declares for the primal exchange values of type `t`. -/
def CallData.Exchanges (d : CallData) (name : String) (t : KernelType) : Prop :=
  ∀ target, loadHead "primal" target ∈ d.commands name ∨
    storeHead "primal" target ∈ d.commands name → target = t.name

/-- The type that is an alias of its storage has the accessors of the storage. -/
theorem CallData.exchanges_single (s : Storage) (name : String) (t : KernelType) :
    (single s).Exchanges name t := by
  intro target h
  simp [commands, loadHead, storeHead, Command.typeAlias] at h

theorem CallData.exchanges_pair (primal derivative : Storage) (name : String) (t : KernelType) :
    (pair primal derivative t).Exchanges name t := by
  intro target h
  have hslot : ∃ slot : Slot, ∃ storage,
      loadHead (Slot.name .primal) target ∈ slotAccessors slot.name storage (t.inSlot slot) ∨
        storeHead (Slot.name .primal) target ∈
          slotAccessors slot.name storage (t.inSlot slot) := by
    rcases h with hload | hstore
    · rcases mem_slotAccessors_of_line hload with hmem | hmem
      · exact ⟨.primal, _, Or.inl hmem⟩
      · exact ⟨.derivative, _, Or.inl hmem⟩
    · rcases mem_slotAccessors_of_line hstore with hmem | hmem
      · exact ⟨.primal, _, Or.inr hmem⟩
      · exact ⟨.derivative, _, Or.inr hmem⟩
  obtain ⟨slot, storage, hmem⟩ := hslot
  obtain ⟨rfl, htarget⟩ := target_of_mem_slotAccessors hmem
  exact htarget

/-- The commands by which the struct of a dictionary loads the primal of a field of type `t`. -/
def loadCommands (name : String) (t : KernelType) : List Command :=
  [.declare t.name name, accessorCall "load" .primal name name, .assign ("value." ++ name) name]

theorem loadCommands_isInfix {u t : KernelType} {fs : List Variable} {block : List Command}
    (h : fieldAccessors u fs .primal = .ok block) {f : Variable} (hf : f ∈ fs)
    (ht : f.node.vectorType? = some t) : loadCommands f.name t <:+: block := by
  obtain ⟨loads, hloads, h⟩ := bind_eq_ok_iff.mp h
  cases h
  obtain ⟨load, hmem, hload⟩ := exists_of_forall₂_left (mapM_eq_ok_iff.mp hloads) hf
  rw [loadField, Node.vectorType_of_vectorType? ht] at hload
  cases hload
  have hloads : loads.flatten <:+ [.blankLine, .blankLine, loadHead "primal" u.name, .openBlock] ++
      loads.flatten := List.suffix_append _ _
  refine List.IsInfix.trans (List.infix_of_mem_flatten hmem) (hloads.isInfix.trans ?_)
  rw [List.append_assoc, List.append_assoc]
  exact (List.prefix_append _ _).isInfix

namespace Node

variable {n : Node} {d : CallData}

/-- The type that the storage of a single value is named after: for a pair that of the pair, for any
other value the type received. -/
def storedType? (n : Node) : Option KernelType :=
  match n.marshall with
  | .value _ | .valueRef _ => n.vectorType?
  | .diffPair t _ => some t
  | _ => none

/-- A single value is received as some type, and stored under the name of its stored type. -/
theorem isSingle_of_callData (hm : n.marshall.isSingle) (hd : n.callData = .ok d) :
    ∃ t, n.vectorType? = some t ∧ d.Exchanges n.name t ∧ ∃ u, n.storedType? = some u ∧
      ∀ name, (d.storage .primal).IsSingle name ↔ d.storage .primal ≠ .none ∧ u.name = name := by
  rw [callData] at hd
  rw [storedType?]
  generalize n.marshall = m at hd hm ⊢
  cases m with
  | value w =>
    obtain ⟨t, ht, hd⟩ := bind_eq_ok_iff.mp hd
    cases hd
    have ht := receivedType_eq_ok_iff.mp ht
    refine ⟨t, ht, CallData.exchanges_single _ _ _, t, ht, fun name ↦ ?_⟩
    simp [CallData.storage, Storage.isSingle_iff]
  | valueRef w =>
    obtain ⟨t, ht, hd⟩ := bind_eq_ok_iff.mp hd
    cases hd
    have ht := receivedType_eq_ok_iff.mp ht
    refine ⟨t, ht, CallData.exchanges_single _ _ _, t, ht, fun name ↦ ?_⟩
    exact Storage.isSingle_ofValue_iff
  | diffPair w needsGrad =>
    obtain ⟨t, ht, hd⟩ := bind_eq_ok_iff.mp hd
    cases hd
    refine ⟨t, receivedType_eq_ok_iff.mp ht, CallData.exchanges_pair _ _ _ _, w, rfl, fun name ↦ ?_⟩
    exact Storage.isSingle_ofValue_iff
  | _ => cases hm

/-- The storage of a single value names the type received, unless a pair is received as another type
than its own. -/
theorem forall_isSingle_iff (hm : n.marshall.isSingle) (hd : n.callData = .ok d) :
    ∃ t, n.vectorType? = some t ∧ d.Exchanges n.name t ∧
      ((∀ name, (d.storage .primal).IsSingle name → name = t.name) ↔
        (n.marshall.isPair → d.storage .primal ≠ .none → t.name = n.marshall.kernelType.name)) := by
  obtain ⟨t, ht, hexchanges, u, hu, hsingle⟩ := isSingle_of_callData hm hd
  refine ⟨t, ht, hexchanges, ?_⟩
  simp only [hsingle]
  rw [storedType?] at hu
  generalize n.marshall = m at hu hm ⊢
  cases m with
  | value w | valueRef w =>
    obtain rfl : t = u := by simpa [ht] using hu
    exact iff_of_true (fun name hname ↦ hname.2.symm) nofun
  | diffPair w needsGrad =>
    obtain rfl : w = u := Option.some.inj hu
    constructor
    · intro hname _ hstored
      exact (hname w.name ⟨hstored, rfl⟩).symm
    · rintro hsame name ⟨hstored, rfl⟩
      exact (hsame rfl hstored).symm
  | _ => cases hm

end Node

namespace Call

/-- Wherever a leaf is a field of a dictionary whose primal is touched, the struct of the dictionary
loads it as a value of type `t`. -/
def LoadedAs (c : Call) (gridRank : Nat) (n : Node) (t : KernelType) : Prop :=
  ∀ v ∈ c.roots, ∀ m fs, .dict m fs ∈ v.parts → .leaf n ∈ fs → m.access.primal ≠ .none →
    ∃ isRoot own, (Variable.dict m fs).typeCommands gridRank isRoot = .ok own ∧
      loadCommands n.name t <:+: own

variable {lookup : Lookup} {settings : Settings} {f : Function} {a : Arguments} {o : Vectorization}
  {b : BuiltCall}

theorem loadedAs_of_build (h : build lookup settings f a o = .ok b) {n : Node} {t : KernelType}
    (ht : n.vectorType? = some t) : b.call.LoadedAs b.gridRank n t := by
  intro v hv m fs hm hn haccess
  obtain ⟨isRoot, own, hown⟩ := typeCommands_of_build h hv hm
  have hslot : .primal ∈ m.accessedSlots := Node.mem_accessedSlots_iff.mpr haccess
  obtain ⟨u, block, -, hblock, hinfix⟩ := Variable.fieldAccessors_of_typeCommands hown hslot
  exact ⟨isRoot, own, hown, (loadCommands_isInfix hblock hn ht).trans hinfix⟩

/-- **When storage and accessors agree.** Every plain value, reference and pair of a built call,
whatever type it is bound to or pinned to, is loaded by the struct around it as the type it is
received as, and so is it by accessors of its own. Storage that holds one value holds one of this
type, except that of a pair that is received as another type than it was made of. -/
theorem forall_isSingle_iff_of_build (h : build lookup settings f a o = .ok b) :
    ∀ n ∈ b.call.leaves, n.marshall.isSingle → ∃ d isRoot t,
      n.callData = .ok d ∧ n.vectorType? = some t ∧
      (Variable.leaf n).typeCommands b.gridRank isRoot =
        .ok (d.commands n.name ++ [mappingConstant n.name n.mapping.axes]) ∧
      d.Exchanges n.name t ∧ b.call.LoadedAs b.gridRank n t ∧
      ((∀ name, (d.storage .primal).IsSingle name → name = t.name) ↔
        (n.marshall.isPair → d.storage .primal ≠ .none →
          t.name = n.marshall.kernelType.name)) := by
  intro n hn hm
  obtain ⟨v, hv, hnv⟩ := List.mem_flatMap.mp hn
  obtain ⟨isRoot, own, hown⟩ := typeCommands_of_build h hv (Variable.mem_leaves_iff.mp hnv)
  obtain ⟨d, hd, rfl⟩ := Node.leafCommands_eq_ok hown
  obtain ⟨t, ht, hexchanges, hiff⟩ := Node.forall_isSingle_iff hm hd
  exact ⟨d, isRoot, t, hd, ht, hown, hexchanges, loadedAs_of_build h ht, hiff⟩

/-- A point of a pair and an integer, both of which are received as a `float`. -/
theorem forall_isSingle_iff_mixedPoint :
    ∃ b, build ⟨.standard, .builtin⟩ { mode := .backward } measure mixedPoint {} = .ok b ∧
      ∀ n ∈ b.call.leaves, n.marshall.isSingle → ∃ d isRoot t,
        n.callData = .ok d ∧ n.vectorType? = some t ∧
        (Variable.leaf n).typeCommands b.gridRank isRoot =
          .ok (d.commands n.name ++ [mappingConstant n.name n.mapping.axes]) ∧
        d.Exchanges n.name t ∧ b.call.LoadedAs b.gridRank n t ∧
        ((∀ name, (d.storage .primal).IsSingle name → name = t.name) ↔
          (n.marshall.isPair → d.storage .primal ≠ .none →
            t.name = n.marshall.kernelType.name)) := by
  have hbuilds : (build ⟨.standard, .builtin⟩ { mode := .backward } measure mixedPoint
      {}).toOption.isSome := by decide +kernel
  obtain ⟨b, hb⟩ := Option.isSome_iff_exists.mp hbuilds
  have h := toOption_eq_some_iff.mp hb
  exact ⟨b, h, forall_isSingle_iff_of_build h⟩

/-- A kernel that takes a `double`. -/
def sharpen : Function where
  name := "sharpen"
  params := [{ name := "x", type := .scalar .double }]

/-- A number with a gradient. -/
def trackedNumber : Arguments where
  args := [.diffPair 0 0 true]

/-- **A `double` out of the storage of a `float`.** The accessors of a pair that a kernel takes as a
`double` exchange a `double` with storage that is declared for a `float`. -/
theorem exists_isSingle_ne : ∃ b, build ⟨.standard, .builtin⟩ {} sharpen trackedNumber {} = .ok b ∧
    ∃ n ∈ b.call.leaves, ∃ d t, n.marshall.isSingle ∧ n.callData = .ok d ∧
      n.vectorType? = some t ∧ t.name = "double" ∧
      loadHead "primal" "double" ∈ d.commands n.name ∧ (d.storage .primal).IsSingle "float" :=
  ⟨_, rfl, _, List.mem_cons_self, _, _, rfl, rfl, rfl, rfl, by decide, by decide⟩

end Call

end KernelCall
