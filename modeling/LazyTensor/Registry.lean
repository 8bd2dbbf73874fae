import LazyTensor.Host.Execute
import LazyTensor.Shader.Options

/-!
# Backends by device

A constructor is registered for a kind of devices, under a name that finds its configuration. The
backend of a device is made when it is first asked for, and later calls give the same backend or the
same error, until all backends are finalized.
-/

namespace LazyTensor

/-- The number of a backend. -/
abbrev BackendId := Nat

/-- A backend that computes on the host, with the name and the device that it reports. -/
structure Backend where
  name : String
  device : Device
  host : Host
  /-- The configuration it was made with. -/
  configuration : String
  /-- Whether its constructor is one of the caller. -/
  custom : Bool := false

/-- Why a backend is not made. -/
inductive BackendError where
  | hostDevice (device : Device)
  | shaderDevice (device : Device)
  | options (cause : Options.Error)
  | deviceOptions (cause : Shader.DeviceOptions.Error)
  | notExposed (device : Device)
  /-- There is no device of the kind. -/
  | noDevice
  /-- The reason of a constructor of the caller. -/
  | custom (kind : FailureKind) (reason : String)

instance : Failure BackendError where
  kind
    | .notExposed _ | .noDevice => .unavailable
    | .custom kind _ => kind
    | _ => .plain
  message
    | .hostDevice device => s!"backend {Host.name} only supports the cpu device, got {device.text}"
    | .shaderDevice device =>
      s!"backend {Shader.backendName} only supports gpu devices, got {device.text}"
    | .options cause => Failure.message cause
    | .deviceOptions cause => Failure.message cause
    | .notExposed device =>
      context s!"backend {Shader.backendName} only exposes gpu:0, got {device.text}"
        FailureKind.unavailable.cause
    | .noDevice => context s!"{Shader.backendName}: no device" FailureKind.unavailable.cause
    | .custom .plain reason => reason
    | .custom kind reason => context reason kind.cause

namespace Backend

/-- The backend of the host processor. -/
def ofHost (device : Device) (configuration : String) : Except BackendError Backend := do
  if !device.isCPU || !device.ok then throw (.hostDevice device)
  let host ← (Host.ofConfiguration configuration).mapError .options
  return { name := Host.name, device := .cpu, host, configuration }

/-- The backend of a graphics processor, of which there is none. -/
def ofShader (device : Device) (configuration : String) : Except BackendError Backend := do
  if !device.isGPU || !device.ok then throw (.shaderDevice device)
  let _ ← (Shader.DeviceOptions.parse configuration).mapError .deviceOptions
  if device.index ≠ 0 then throw (.notExposed device)
  throw .noDevice

end Backend

/-- A constructor of backends and its name. -/
structure Registration where
  name : String
  construct : Device → (configuration : String) → Except BackendError Backend
  /-- Whether the constructor is one of the caller. -/
  custom : Bool := false

/-- Why there is no backend for a device. -/
inductive RegistryError where
  | invalidDevice (device : Device)
  | notRegistered (kind : DeviceKind)
  | failed (name : String) (device : Device) (configuration : String) (cause : BackendError)

instance : Failure RegistryError where
  kind
    | .invalidDevice _ => .plain
    | .notRegistered _ => .unavailable
    | .failed _ _ _ cause => Failure.kind cause
  message
    | .invalidDevice device => s!"invalid device {device.text}"
    | .notRegistered kind => context
      (s!"no backend registered for {kind.name} devices -- maybe import _ " ++
        "\"github.com/gomlx/constensor/backends/default\"?") FailureKind.unavailable.cause
    | .failed name device configuration cause => context
      (s!"failed to create backend {Text.quote name} for {device.text} " ++
        s!"with config {Text.quote configuration}") (Failure.message cause)

structure ConstructorCall where
  device : Device
  name : String
  configuration : String
  custom : Bool

/-- Constructors, the backends made by them, configurations and declared capabilities. -/
structure Registry where
  registrations : List (DeviceKind × Registration) := []
  /-- What the constructor of a device gave. -/
  instances : List (Device × Except RegistryError BackendId) := []
  /-- Configurations that were set by name. -/
  overrides : Settings := []
  /-- The configuration of all backends in the environment. -/
  environment : Option String := none
  declared : List (DeviceKind × (String → Capabilities)) := []
  /-- The configurations for which declared capabilities were asked. -/
  queries : List String := []
  calls : List ConstructorCall := []

namespace Registry

/-- Replaces the entry of a kind. -/
def setEntry {α : Type} (entries : List (DeviceKind × α)) (kind : DeviceKind) (a : α) :
    List (DeviceKind × α) :=
  (kind, a) :: entries.filter (·.1 != kind)

def register (r : Registry) (kind : DeviceKind) (registration : Registration) : Registry :=
  { r with registrations := setEntry r.registrations kind registration }

def unregister (r : Registry) (kind : DeviceKind) : Registry :=
  { r with registrations := r.registrations.filter (·.1 != kind) }

/-- The registry with the backends of the library. -/
def standard : Registry :=
  (({} : Registry).register .cpu ⟨Host.name, Backend.ofHost, false⟩).register .gpu
    ⟨Shader.backendName, Backend.ofShader, false⟩

def registration? (r : Registry) (kind : DeviceKind) : Option Registration :=
  r.registrations.lookup kind

/-- The names of the registered constructors, that of the host first. -/
def names (r : Registry) : List String :=
  [DeviceKind.cpu, DeviceKind.gpu].filterMap fun kind => (r.registration? kind).map (·.name)

def setConfiguration (r : Registry) (name configuration : String) : Registry :=
  { r with overrides := r.overrides.insert name configuration }

/-- The configuration of a name: the one that was set, or else the one in the environment. -/
def configuration (r : Registry) (name : String) : String :=
  match r.overrides.get? name with
  | some configuration => configuration
  | none =>
    match r.environment with
    | some environment => ((Configuration.split environment).get? name).getD ""
    | none => ""

def declare (r : Registry) (kind : DeviceKind) (capabilities : String → Capabilities) : Registry :=
  { r with declared := setEntry r.declared kind capabilities }

/-- Checks an operation against the capabilities declared for the kind of a device, if there are any. -/
def checkDeclared (r : Registry) (device : Device) (op : Operation) (output : DType) :
    Except Capabilities.Error Unit × Registry :=
  match r.declared.lookup device.kind with
  | none => (.ok (), r)
  | some capabilities =>
    let name := ((r.registration? device.kind).map (·.name)).getD ""
    let configuration := r.configuration name
    ((capabilities configuration).checkOperation name op output,
      { r with queries := r.queries ++ [configuration] })

/-- How often constructors of the caller were called. -/
def customCalls (r : Registry) : Nat := r.calls.countP (·.custom)

end Registry

/-- The memory of the host, all backends by number, and the registry. -/
structure Platform where
  heap : Heap := {}
  backends : Array Backend := #[]
  registry : Registry := .standard

/-- Steps on a platform. The state is kept when one fails. -/
abbrev PlatformM (ε : Type) := ExceptT ε (StateM Platform)

namespace Platform

def addBackend (p : Platform) (b : Backend) : BackendId × Platform :=
  (p.backends.size, { p with backends := p.backends.push b })

/-- Calls the constructor of a device. -/
def construct (p : Platform) (device : Device) (registration : Registration) :
    Except RegistryError BackendId × Platform :=
  let name := registration.name
  let configuration := p.registry.configuration name
  let (result, p) : Except RegistryError BackendId × Platform :=
    match registration.construct device configuration with
    | .error e => (.error (.failed name device configuration e), p)
    | .ok b =>
      let (id, p) := p.addBackend b
      (.ok id, p)
  (result, { p with registry := { p.registry with
    instances := (device, result) :: p.registry.instances
    calls := p.registry.calls ++ [⟨device, name, configuration, registration.custom⟩] } })

/-- The backend of a device, which is made when it is first asked for. -/
def forDevice (p : Platform) (device : Device) : Except RegistryError BackendId × Platform :=
  if !device.ok then (.error (.invalidDevice device), p)
  else match p.registry.registration? device.kind with
    | none => (.error (.notRegistered device.kind), p)
    | some registration =>
      match p.registry.instances.lookup device with
      | some result => (result, p)
      | none => p.construct device registration

def finalizeBackend (p : Platform) (id : BackendId) : Platform :=
  { p with backends := p.backends.modify id fun b => { b with host := b.host.finalize } }

/-- The backends that were made for devices. -/
def madeForDevices (p : Platform) : List BackendId :=
  p.registry.instances.filterMap fun (_, result) => result.toOption

/-- Finalizes all backends that were made for devices, and forgets them. -/
def finalizeAll (p : Platform) : Platform :=
  let p := p.madeForDevices.foldl finalizeBackend p
  { p with registry := { p.registry with instances := [] } }

def host? (p : Platform) (id : BackendId) : Option Host := p.backends[id]?.map (·.host)

/-- Replaces the host of a backend. -/
def setHost (p : Platform) (id : BackendId) (host : Host) : Platform :=
  { p with backends := p.backends.modify id ({ · with host }) }

end Platform

namespace PlatformM

def forDevice (device : Device) : PlatformM RegistryError BackendId := do
  let (result, p) := (← get).forDevice device
  set p
  result

/-- Runs steps on the host of a backend. -/
def onHost {ε α : Type} (id : BackendId) (steps : HostM ε α) : PlatformM ε α := do
  let p ← get
  let host := (p.host? id).getD { workers := .withParallelism 0, minParallel := 0, account := { limit := 0 } }
  let (result, s) := (ExceptT.run steps).run ⟨host, p.heap⟩
  set { p.setHost id s.host with heap := s.heap }
  result

end PlatformM

end LazyTensor
