import KernelCall.Marshall.Basic

/-!
# Marshall registries

A registry holds a factory for each kind of host value it knows. A factory makes the marshall for
a value, or the marshall that a bare kind stands for when there is no value; the latter may be
refused, since the kernel type of a container depends on its elements.
-/

namespace KernelCall

/-- Makes the marshall for a value, or for a kind without a value. -/
abbrev MarshallFactory := Option HostValue → Except MarshallError Marshall

namespace MarshallFactory

/-- The type of a number, or of a vector with 1 to 4 components. -/
def plainType (v : HostValue) : Except MarshallError KernelType :=
  match v with
  | .vector s components =>
    if 1 ≤ components.length ∧ components.length ≤ 4 then .ok (.vector s components.length)
    else .error (.componentCount components.length)
  | v => match v.plainType? with
    | some t => .ok t
    | none => .error (.notPlain v.kind)

/-- Numbers and vectors; without a value, a `float`. -/
def value : MarshallFactory
  | some v => .value <$> plainType v
  | none => .ok (.value (.scalar .float))

def valueRef : MarshallFactory
  | some (.valueRef inner) => .valueRef <$> plainType inner
  | some other => .error (.unexpected .valueRef other.kind)
  | none => .error (.valueNeeded .valueRef)

/-- Pairs of a `float` and its gradient; without a value, one whose gradient is asked for. -/
def diffPair : MarshallFactory
  | some (.diffPair _ _ needsGrad) => .ok (.diffPair (.scalar .float) needsGrad)
  | some other => .error (.unexpected .diffPair other.kind)
  | none => .ok (.diffPair (.scalar .float) true)

def buffer : MarshallFactory
  | some (.buffer b) => .ok (.buffer b)
  | some other => .error (.unexpected .buffer other.kind)
  | none => .error (.valueNeeded .buffer)

def diffBuffer : MarshallFactory
  | some (.diffBuffer b needsGrad) => .ok (.diffBuffer b needsGrad)
  | some other => .error (.unexpected .diffBuffer other.kind)
  | none => .error (.valueNeeded .diffBuffer)

/-- Textures of 1 to 3 dimensions with one extent for each. -/
def texture : MarshallFactory
  | some (.texture t) =>
    if 1 ≤ t.dims ∧ t.dims ≤ 3 ∧ t.size.length = t.dims then .ok (.texture t)
    else .error (.textureSize t.dims t.size)
  | some other => .error (.unexpected .texture other.kind)
  | none => .error (.valueNeeded .texture)

def dict : MarshallFactory
  | some (.dict _) => .ok .dict
  | some other => .error (.unexpected .dict other.kind)
  | none => .error .dictAsOverride

/-- The factory that the built-in registry has for a kind. -/
def builtin : HostKind → MarshallFactory
  | .int | .float | .bool | .vector => value
  | .valueRef => valueRef
  | .diffPair => diffPair
  | .buffer => buffer
  | .diffBuffer => diffBuffer
  | .texture => texture
  | .dict => dict

/-- Makes the same marshall of every value. -/
def always (m : Marshall) : MarshallFactory := fun _ ↦ .ok m

/-- Refuses every value in the given words. -/
def refusing (message : String) : MarshallFactory := fun _ ↦ .error (.refused message)

/-- Carries values of one kind, and treats any other value as if there were none. -/
def onlyFor (kind : HostKind) : MarshallFactory := fun v? ↦
  builtin kind (v?.filter (·.kind == kind))

end MarshallFactory

/-- The factories for the kinds of host values. Later registrations stand in front. -/
structure MarshallRegistry where
  factories : List (HostKind × MarshallFactory) := []

namespace MarshallRegistry

def empty : MarshallRegistry := {}

/-- Registers a factory for a kind, in place of any earlier one. -/
def register (registry : MarshallRegistry) (kind : HostKind) (factory : MarshallFactory) :
    MarshallRegistry :=
  ⟨(kind, factory) :: registry.factories⟩

/-- The registry that carries every kind of value. -/
def builtin : MarshallRegistry :=
  ⟨HostKind.all.map fun kind ↦ (kind, MarshallFactory.builtin kind)⟩

def factory? (registry : MarshallRegistry) (kind : HostKind) : Option MarshallFactory :=
  (registry.factories.find? (·.1 == kind)).map (·.2)

theorem factory?_builtin (kind : HostKind) :
    builtin.factory? kind = some (MarshallFactory.builtin kind) := by
  cases kind <;> rfl

theorem factory?_register_self (registry : MarshallRegistry) (kind : HostKind)
    (factory : MarshallFactory) : (registry.register kind factory).factory? kind = some factory := by
  simp [factory?, register]

def contains (registry : MarshallRegistry) (kind : HostKind) : Bool :=
  (registry.factory? kind).isSome

/-- The marshall that the factory for a kind makes. -/
def make (registry : MarshallRegistry) (kind : HostKind) (v? : Option HostValue) :
    Except MarshallError Marshall :=
  match registry.factory? kind with
  | some factory => factory v?
  | none => .error (.unregistered kind)

/-- The marshall for a value. -/
def forValue (registry : MarshallRegistry) (v : HostValue) : Except MarshallError Marshall :=
  registry.make v.kind (some v)

/-- The marshall that a bare kind stands for. -/
def forKind (registry : MarshallRegistry) (kind : HostKind) : Except MarshallError Marshall :=
  registry.make kind none

end MarshallRegistry

end KernelCall
