import KernelCall.Marshall.Registry
import KernelCall.Proofs.Text.Token

/-!
# Marshalls that answer alike

The extents of a container matter to a call only through their number, a gradient only through the
derivatives that it permits, and whether a container can be written only where it is received whole.
Marshalls that differ in nothing else give the same answers to questions about kernel types, where
they give any. Of the marshalls that the built-in registry makes, those are alike that have one type
name and one element type.
-/

namespace KernelCall

open Text

/-- The containers have one element type and the same number of extents. -/
structure Container.Alike (c c' : Container) : Prop where
  element : c.element = c'.element
  dims : c.dims = c'.dims

namespace Container

variable {c c' : Container} {t t' : KernelType}

theorem Alike.symm (h : c.Alike c') : c'.Alike c := ⟨h.element.symm, h.dims.symm⟩

/-- What is left of containers that are alike is the same type, unless they are left whole. -/
theorem Alike.reduce {count : Nat} (h : c.Alike c') (hwhole : count = 0 → c.type = c'.type)
    (ht : c.reduce count = .ok t) (ht' : c'.reduce count = .ok t') : t = t' := by
  rw [Container.reduce] at ht ht'
  by_cases hcount : count = 0
  · rw [if_pos hcount] at ht ht'
    cases ht
    cases ht'
    exact hwhole hcount
  · rw [if_neg hcount] at ht ht'
    rw [← h.dims, ← h.element] at ht'
    split at ht
    · cases ht
    · next hdims =>
      rw [if_neg hdims] at ht'
      split at ht
      · next u hu =>
        rw [hu] at ht'
        cases ht
        cases ht'
        rfl
      · cases ht

theorem resolve_eq_ok {bound : KernelType} (h : c.resolve bound = .ok t) :
    t = if bound.isInterface then c.element else bound := by
  rw [Container.resolve] at h
  split_ifs at h ⊢ <;> cases h <;> rfl

theorem Alike.length_shape (h : c.Alike c') : c.shape.length = c'.shape.length := by
  have hdims : c.extents.length = c'.extents.length := h.dims
  rw [shape, shape, List.length_append, List.length_append, hdims, h.element]

end Container

namespace Marshall

/-- The marshalls differ at most in extents, not in how many there are, in whether a container can
be written, and in the gradient. -/
inductive Alike : Marshall → Marshall → Prop where
  | value (t : KernelType) : Alike (value t) (value t)
  | valueRef (t : KernelType) : Alike (valueRef t) (valueRef t)
  | diffPair (t : KernelType) (needsGrad needsGrad' : Bool) :
    Alike (diffPair t needsGrad) (diffPair t needsGrad')
  | buffer {b b' : BufferValue} (h : b.container.Alike b'.container) : Alike (buffer b) (buffer b')
  | diffBuffer {b b' : BufferValue} (needsGrad needsGrad' : Bool)
    (h : b.container.Alike b'.container) :
    Alike (diffBuffer b needsGrad) (diffBuffer b' needsGrad')
  | texture {t t' : TextureValue} (h : t.container.Alike t'.container) :
    Alike (texture t) (texture t')
  | dict : Alike dict dict

variable {m m' : Marshall} {t t' : KernelType}

theorem Alike.symm (h : m.Alike m') : m'.Alike m := by
  cases h with
  | value t => exact .value t
  | valueRef t => exact .valueRef t
  | diffPair t needsGrad needsGrad' => exact .diffPair t needsGrad' needsGrad
  | buffer h => exact .buffer h.symm
  | diffBuffer needsGrad needsGrad' h => exact .diffBuffer needsGrad' needsGrad h.symm
  | texture h => exact .texture h.symm
  | dict => exact .dict

/-! ## Alike in all answers -/

theorem Alike.reduce {count : Nat} (h : m.Alike m')
    (hwhole : count = 0 → m.kernelType = m'.kernelType) (ht : m.reduce count = .ok t)
    (ht' : m'.reduce count = .ok t') : t = t' := by
  cases h with
  | buffer h | diffBuffer _ _ h | texture h => exact h.reduce hwhole ht ht'
  | _ => exact Except.ok.inj (ht.symm.trans ht')

theorem Alike.resolve {bound : KernelType} (h : m.Alike m') (ht : m.resolve bound = .ok t)
    (ht' : m'.resolve bound = .ok t') : t = t' := by
  cases h with
  | buffer h | diffBuffer _ _ h | texture h =>
    rw [Container.resolve_eq_ok ht, Container.resolve_eq_ok ht', h.element]
  | _ => exact Except.ok.inj (ht.symm.trans ht')

theorem Alike.length_declaredShape (h : m.Alike m') :
    m.declaredShape.length = m'.declaredShape.length := by
  cases h with
  | buffer h | diffBuffer _ _ h | texture h => exact h.length_shape
  | _ => rfl

theorem Alike.dimensionality (h : m.Alike m') : m.dimensionality = m'.dimensionality := by
  funext t
  have hlength := h.length_declaredShape
  cases h with
  | dict => rfl
  | _ => exact congrArg (dimensionsLeft · t) hlength

/-! ## Built-in marshalls -/

/-- What the built-in registry makes: a plain value is a number or a vector, a pair holds a `float`,
and a texture has one extent for each dimension. -/
def Regular : Marshall → Prop
  | value t | valueRef t => (∃ s, t = .scalar s) ∨ ∃ s n, t = .vector s n
  | diffPair t _ => t = .scalar .float
  | texture t => t.size.length = t.dims
  | _ => True

end Marshall

theorem MarshallFactory.plainType_eq_ok {v : HostValue} {t : KernelType}
    (h : plainType v = .ok t) : (∃ s, t = .scalar s) ∨ ∃ s n, t = .vector s n := by
  cases v with
  | int | float | bool =>
    cases h
    exact Or.inl ⟨_, rfl⟩
  | vector s components =>
    rw [plainType] at h
    split at h
    · cases h
      exact Or.inr ⟨s, _, rfl⟩
    · cases h
  | _ => cases h

theorem MarshallRegistry.regular_of_forValue {v : HostValue} {m : Marshall}
    (h : builtin.forValue v = .ok m) : m.Regular := by
  rw [forValue, make, factory?_builtin] at h
  cases v with
  | int | float | bool | vector =>
    obtain ⟨t, ht, rfl⟩ := map_eq_ok_iff.mp h
    exact MarshallFactory.plainType_eq_ok ht
  | valueRef inner =>
    obtain ⟨t, ht, rfl⟩ := map_eq_ok_iff.mp h
    exact MarshallFactory.plainType_eq_ok ht
  | diffPair | buffer | diffBuffer | dict =>
    cases h
    trivial
  | texture t =>
    simp only [MarshallFactory.builtin, MarshallFactory.texture, HostValue.kind] at h
    split at h
    · next hsize =>
      cases h
      exact hsize.2.2
    · cases h

/-- Only a dictionary is carried field by field. -/
theorem MarshallRegistry.ne_dict_of_forValue {v : HostValue} {m : Marshall} (hv : v.kind ≠ .dict)
    (h : builtin.forValue v = .ok m) : m ≠ .dict := by
  rw [forValue, make, factory?_builtin] at h
  rintro rfl
  cases v with
  | int | float | bool | vector | valueRef =>
    obtain ⟨t, -, ht⟩ := map_eq_ok_iff.mp h
    cases ht
  | diffPair | buffer | diffBuffer => cases h
  | texture t =>
    simp only [MarshallFactory.builtin, MarshallFactory.texture, HostValue.kind] at h
    split at h <;> cases h
  | dict => exact hv rfl

namespace Marshall

/-! ## Alike by name -/

/-- What a type name has in front of the name of the element type, and behind it. -/
private def wrapping? : Marshall → Option (List Char × List Char)
  | value _ | dict => none
  | valueRef _ => some ("ValueRef".toList, ['>'])
  | diffPair .. => some ("DiffPair".toList, ['>'])
  | buffer b => some ((KernelType.accessMark b.writable).toList ++ "NDBuffer".toList,
      ',' :: ((toString b.extents.length).toList ++ ['>']))
  | diffBuffer b _ => some ("NDDifferentiableBuffer".toList,
      ',' :: ((toString b.extents.length).toList ++ ['>']))
  | texture t => some ((KernelType.accessMark t.writable).toList ++
      ("Texture".toList ++ ((toString t.dims).toList ++ ['D'])), ['>'])

private theorem toList_typeName (m : Marshall) : m.typeName.toList =
    m.wrapping?.elim m.elementType.name.toList fun w ↦
      w.1 ++ '<' :: (m.elementType.name.toList ++ w.2) := by
  cases m with
  | value t | dict => rfl
  | valueRef t =>
    change ("ValueRef<" ++ t.name ++ ">").toList = _
    simp [wrapping?, elementType]
  | diffPair t =>
    change ("DiffPair<" ++ t.name ++ ">").toList = _
    simp [wrapping?, elementType]
  | buffer b =>
    change (KernelType.accessMark b.writable ++ "NDBuffer<" ++ b.element.name ++ "," ++
      toString b.extents.length ++ ">").toList = _
    simp [wrapping?, elementType]
  | diffBuffer b =>
    change ("NDDifferentiableBuffer<" ++ b.element.name ++ "," ++
      toString b.extents.length ++ ">").toList = _
    simp [wrapping?, elementType]
  | texture t =>
    change (KernelType.accessMark t.writable ++ "Texture" ++ toString t.dims ++ "D<" ++
      t.texel.name ++ ">").toList = _
    simp [wrapping?, elementType]

/-- The characters in front of a name: neither an opening bracket nor a blank. -/
private def inWrapping (c : Char) : Bool := c != '<' && c != ' '

private theorem inWrapping_of_isDigit {c : Char} (h : c.isDigit) : inWrapping c := by
  rw [inWrapping, Bool.and_eq_true, bne_iff_ne, bne_iff_ne]
  constructor <;> rintro rfl <;> exact absurd h (by decide)

private theorem inWrapping_of_wrapping? {m : Marshall} {w : List Char × List Char}
    (h : m.wrapping? = some w) : ∀ c ∈ w.1, inWrapping c := by
  have hmark : ∀ writable, ∀ c ∈ (KernelType.accessMark writable).toList, inWrapping c := by
    intro writable
    rw [← List.all_eq_true]
    cases writable <;> rfl
  have hfixed : ∀ {s : String}, s.toList.all inWrapping → ∀ c ∈ s.toList, inWrapping c :=
    List.all_eq_true.mp
  cases m with
  | value t | dict => cases h
  | valueRef t | diffPair t | diffBuffer b =>
    cases h
    exact hfixed rfl
  | buffer b =>
    cases h
    exact List.forall_mem_append.mpr ⟨hmark _, hfixed rfl⟩
  | texture t =>
    cases h
    refine List.forall_mem_append.mpr ⟨hmark _, List.forall_mem_append.mpr ⟨hfixed rfl, ?_⟩⟩
    refine List.forall_mem_append.mpr ⟨fun c hc ↦ ?_, @hfixed "D" rfl⟩
    exact inWrapping_of_isDigit (isDigit_of_mem_toString hc)

private theorem ne_wrapped (s : List Char) (w : List Char × List Char) :
    s ≠ w.1 ++ '<' :: (s ++ w.2) := by
  intro h
  have hlength := congrArg List.length h
  simp only [List.length_append, List.length_cons] at hlength
  omega

variable {m m' : Marshall}

private theorem wrapping?_eq (hname : m.typeName = m'.typeName)
    (helement : m.elementType = m'.elementType) : m.wrapping? = m'.wrapping? := by
  have hlist := congrArg String.toList hname
  rw [toList_typeName, toList_typeName, helement] at hlist
  cases hw : m.wrapping? with
  | none =>
    cases hw' : m'.wrapping? with
    | none => rfl
    | some w' =>
      rw [hw, hw', Option.elim_none, Option.elim_some] at hlist
      exact absurd hlist (ne_wrapped _ w')
  | some w =>
    cases hw' : m'.wrapping? with
    | none =>
      rw [hw, hw', Option.elim_none, Option.elim_some] at hlist
      exact absurd hlist.symm (ne_wrapped _ w)
    | some w' =>
      rw [hw, hw', Option.elim_some, Option.elim_some] at hlist
      have hopen : ∀ r, Halts (inWrapping ·) ('<' :: r) :=
        fun r ↦ halts_cons (by decide) (by decide)
      obtain ⟨hfirst, hrest⟩ := token_inj (by decide) (inWrapping_of_wrapping? hw)
        (inWrapping_of_wrapping? hw') (hopen _) (hopen _) hlist
      have hsecond := List.append_cancel_left (List.cons.inj hrest).2
      exact congrArg some (Prod.ext hfirst hsecond)

/-- The sorts of marshalls that type names tell apart. -/
private def sort : Marshall → Nat
  | value _ | dict => 0
  | valueRef _ => 1
  | diffPair .. => 2
  | buffer _ => 3
  | diffBuffer .. => 4
  | texture _ => 5

/-- The third character is one that no other sort has. -/
private def sortOf (w : List Char × List Char) : Nat :=
  match w.1[2]? with
  | some 'l' => 1
  | some 'f' => 2
  | some 'B' | some 'N' => 3
  | some 'D' => 4
  | _ => 5

private theorem sort_eq (m : Marshall) : m.sort = m.wrapping?.elim 0 sortOf := by
  cases m with
  | value t | valueRef t | diffPair t | diffBuffer b | dict => rfl
  | buffer b => cases hw : b.writable <;> simp [sort, wrapping?, sortOf, KernelType.accessMark, hw]
  | texture t => cases hw : t.writable <;> simp [sort, wrapping?, sortOf, KernelType.accessMark, hw]

private theorem buffer_dims_inj {n n' : Nat}
    (h : ',' :: ((toString n).toList ++ ['>']) = ',' :: ((toString n').toList ++ ['>'])) : n = n' :=
  have hhalts : Halts (·.isDigit) ['>'] := halts_cons (by decide) (by decide)
  (toString_inj hhalts hhalts (List.cons.inj h).2).1

private theorem texture_dims_inj {writable writable' : Bool} {n n' : Nat}
    (h : (KernelType.accessMark writable).toList ++ ("Texture".toList ++
      ((toString n).toList ++ ['D'])) = (KernelType.accessMark writable').toList ++
        ("Texture".toList ++ ((toString n').toList ++ ['D']))) : n = n' := by
  have hhalts : Halts (·.isDigit) ['D'] := halts_cons (by decide) (by decide)
  by_cases hwritable : writable = writable'
  · rw [hwritable] at h
    exact (toString_inj hhalts hhalts (List.append_cancel_left (List.append_cancel_left h))).1
  · cases writable <;> cases writable' <;> simp [KernelType.accessMark] at h hwritable

/-- **Alike by name.** Built-in marshalls are alike if they have one type name and one element
type. -/
theorem alike_of_typeName (hm : m.Regular) (hm' : m'.Regular) (hname : m.typeName = m'.typeName)
    (helement : m.elementType = m'.elementType) : m.Alike m' := by
  have hwrap := wrapping?_eq hname helement
  have hsort : m.sort = m'.sort := by rw [sort_eq, sort_eq, hwrap]
  cases m <;> cases m' <;> try simp [sort] at hsort
  case value.value t t' =>
    cases helement
    exact .value t
  case value.dict t =>
    cases helement
    simp [Regular] at hm
  case valueRef.valueRef t t' =>
    cases helement
    exact .valueRef t
  case diffPair.diffPair t needsGrad t' needsGrad' =>
    cases helement
    exact .diffPair t needsGrad needsGrad'
  case buffer.buffer b b' =>
    exact .buffer ⟨helement, buffer_dims_inj (Prod.mk.inj (Option.some.inj hwrap)).2⟩
  case diffBuffer.diffBuffer b needsGrad b' needsGrad' =>
    refine .diffBuffer needsGrad needsGrad' ⟨helement, ?_⟩
    exact buffer_dims_inj (Prod.mk.inj (Option.some.inj hwrap)).2
  case texture.texture t t' =>
    have hdims := texture_dims_inj (Prod.mk.inj (Option.some.inj hwrap)).1
    exact .texture ⟨helement, hm.trans (hdims.trans hm'.symm)⟩
  case dict.value t =>
    cases helement
    simp [Regular] at hm'
  case dict.dict => exact .dict

end Marshall

end KernelCall
