import KernelCall.Proofs.Marshall.Alike

/-!
# Payload

Most of what is in a host value is payload: numbers, the components of a vector, the extents of
a container. The marshall of a value keeps nothing of it but how many components or extents there
are, and the registry looks no further when it makes one. So erasing the payload, and putting zeros
in its place, changes no answer of a marshall.
-/

namespace KernelCall

/-! ## Erasing payload -/

/-- As many extents, all zero. -/
def eraseExtents (extents : List Nat) : List Nat := List.replicate extents.length 0

@[simp] theorem length_eraseExtents (extents : List Nat) :
    (eraseExtents extents).length = extents.length := List.length_replicate

def BufferValue.erase (b : BufferValue) : BufferValue :=
  { b with extents := eraseExtents b.extents }

def TextureValue.erase (t : TextureValue) : TextureValue := { t with size := eraseExtents t.size }

namespace HostValue

mutual

/-- The value without its payload, also without that of values inside: numbers and extents are
zero. What is left is of which kind the value is, the scalar type and the number of components of
a vector, whether a gradient is needed, the keys of a dictionary, and of a container everything but
how large it is in each of its dimensions. -/
def erase : HostValue → HostValue
  | int _ => int 0
  | float _ => float 0
  | bool _ => bool false
  | vector s components => vector s (List.replicate components.length 0)
  | valueRef inner => valueRef inner.erase
  | diffPair _ _ needsGrad => diffPair 0 0 needsGrad
  | buffer b => buffer b.erase
  | diffBuffer b needsGrad => diffBuffer b.erase needsGrad
  | texture t => texture t.erase
  | dict entries => dict (eraseEntries entries)

def eraseEntries : List (String × HostValue) → List (String × HostValue)
  | [] => []
  | (key, v) :: entries => (key, v.erase) :: eraseEntries entries

end

theorem kind_erase (v : HostValue) : v.erase.kind = v.kind := by
  cases v <;> rfl

end HostValue

/-- The marshall without the extents it carries. -/
def Marshall.erase : Marshall → Marshall
  | value t => value t
  | valueRef t => valueRef t
  | diffPair t needsGrad => diffPair t needsGrad
  | buffer b => buffer b.erase
  | diffBuffer b needsGrad => diffBuffer b.erase needsGrad
  | texture t => texture t.erase
  | dict => dict

/-! ## The marshall of a value -/

theorem MarshallFactory.plainType_erase (v : HostValue) : plainType v.erase = plainType v := by
  cases v with
  | vector s components => simp [HostValue.erase, plainType]
  | _ => rfl

/-- A value without payload has the marshall of the value, without extents, and if there is none for
the one, there is none for the other. -/
theorem MarshallRegistry.forValue_erase (v : HostValue) :
    (builtin.forValue v.erase).toOption = (builtin.forValue v).toOption.map Marshall.erase := by
  rw [forValue, forValue, make, make, factory?_builtin, factory?_builtin, HostValue.kind_erase]
  cases v with
  | int | float | bool | diffPair | buffer | diffBuffer | dict => rfl
  | vector s components =>
    change (Marshall.value <$> MarshallFactory.plainType (HostValue.erase _)).toOption = _
    rw [MarshallFactory.plainType_erase]
    change _ = ((Marshall.value <$> MarshallFactory.plainType _).toOption).map _
    cases MarshallFactory.plainType (.vector s components) <;> rfl
  | valueRef inner =>
    change (Marshall.valueRef <$> MarshallFactory.plainType inner.erase).toOption =
      ((Marshall.valueRef <$> MarshallFactory.plainType inner).toOption).map _
    rw [MarshallFactory.plainType_erase]
    cases MarshallFactory.plainType inner <;> rfl
  | texture t =>
    simp only [HostValue.erase, HostValue.kind, MarshallFactory.builtin, MarshallFactory.texture,
      TextureValue.erase, length_eraseExtents]
    split <;> rfl

/-! ## Answers -/

/-- The containers differ in extents only, of which they have the same number. -/
structure Container.Resized (c c' : Container) : Prop extends c.Alike c' where
  type : c.type = c'.type

namespace Container

variable {c c' : Container}

theorem Resized.reduce (h : c.Resized c') : c.reduce = c'.reduce := by
  funext count
  rw [Container.reduce, Container.reduce, h.type, h.dims, h.element]

theorem Resized.resolve (h : c.Resized c') : c.resolve = c'.resolve := by
  funext bound
  have hfills : c.fills bound = c'.fills bound := by
    unfold fills
    rw [h.type]
  have hholds : c.holds bound = c'.holds bound := by
    unfold holds
    rw [h.reduce, h.dims, h.element]
  rw [Container.resolve, Container.resolve, hfills, hholds, h.type, h.element]

end Container

theorem BufferValue.resized_erase (b : BufferValue) : b.erase.container.Resized b.container := by
  refine ⟨⟨rfl, length_eraseExtents _⟩, ?_⟩
  simp [container, erase]

theorem TextureValue.resized_erase (t : TextureValue) : t.erase.container.Resized t.container :=
  ⟨⟨rfl, length_eraseExtents _⟩, rfl⟩

namespace Marshall

theorem alike_erase (m : Marshall) : m.erase.Alike m := by
  cases m with
  | value t => exact .value t
  | valueRef t => exact .valueRef t
  | diffPair t needsGrad => exact .diffPair t needsGrad needsGrad
  | buffer b => exact .buffer b.resized_erase.toAlike
  | diffBuffer b needsGrad => exact .diffBuffer needsGrad needsGrad b.resized_erase.toAlike
  | texture t => exact .texture t.resized_erase.toAlike
  | dict => exact .dict

@[simp] theorem reduce_erase (m : Marshall) : m.erase.reduce = m.reduce := by
  funext count
  cases m with
  | buffer b | diffBuffer b _ => exact congrFun b.resized_erase.reduce count
  | texture t => exact congrFun t.resized_erase.reduce count
  | _ => rfl

@[simp] theorem resolve_erase (m : Marshall) : m.erase.resolve = m.resolve := by
  funext bound
  cases m with
  | buffer b | diffBuffer b _ => exact congrFun b.resized_erase.resolve bound
  | texture t => exact congrFun t.resized_erase.resolve bound
  | _ => rfl

@[simp] theorem dimensionality_erase (m : Marshall) : m.erase.dimensionality = m.dimensionality :=
  m.alike_erase.dimensionality

@[simp] theorem typeName_erase (m : Marshall) : m.erase.typeName = m.typeName := by
  cases m with
  | buffer b =>
    change b.erase.container.type.name = b.container.type.name
    rw [b.resized_erase.type]
  | diffBuffer b needsGrad =>
    have hlength : b.erase.extents.length = b.extents.length := length_eraseExtents _
    change "NDDifferentiableBuffer<" ++ b.element.name ++ "," ++ toString b.erase.extents.length ++
      ">" = "NDDifferentiableBuffer<" ++ b.element.name ++ "," ++ toString b.extents.length ++ ">"
    rw [hlength]
  | _ => rfl

@[simp] theorem hasDerivative_erase (m : Marshall) : m.erase.hasDerivative = m.hasDerivative := by
  cases m <;> rfl

@[simp] theorem isWritable_erase (m : Marshall) : m.erase.isWritable = m.isWritable := by
  cases m <;> rfl

end Marshall

end KernelCall
