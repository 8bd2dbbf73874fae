import LazyTensor.Evaluation
import LazyTensor.Graph.Fusion
import LazyTensor.Shader.Device

/-!
# Sessions

A session holds all graphs, tensors and backends of a program. Its steps report failures of all parts
in one form, and a step that fails keeps what was done before it failed.
-/

namespace LazyTensor

/-- A failure of some part. -/
structure Report where
  kind : FailureKind
  message : String

/-- The report of an error. -/
def Report.of {ε : Type} [Failure ε] (e : ε) : Report := ⟨Failure.kind e, Failure.message e⟩

/-- The number of a tensor. -/
abbrev TensorId := Nat

/-- The state of a program. -/
structure Session where
  platform : Platform := {}
  workspace : Workspace := {}
  tensors : Array Tensor := #[]
  /-- Shader backends without a device. -/
  devices : Shader.DeviceState := {}

/-- Steps of a session. -/
abbrev SessionM := ExceptT Report (StateM Session)

namespace SessionM

/-- Reports an error. -/
def fail {ε α : Type} [Failure ε] (e : ε) : SessionM α := throw (.of e)

/-- A result of some part. -/
def check {ε α : Type} [Failure ε] : Except ε α → SessionM α
  | .ok a => return a
  | .error e => fail e

/-- Steps that only use the platform. -/
def onPlatform {α : Type} (x : StateM Platform α) : SessionM α := do
  let s ← get
  let (a, platform) := x.run s.platform
  set { s with platform }
  return a

/-- Steps of the platform that may fail. -/
def platform {ε α : Type} [Failure ε] (x : PlatformM ε α) : SessionM α := do check (← onPlatform x.run)

/-- Steps on the host of a backend. -/
def host {ε α : Type} [Failure ε] (backend : BackendId) (x : HostM ε α) : SessionM α :=
  platform (PlatformM.onHost backend x)

/-- Steps of shader backends. -/
def devices {α : Type} (x : Shader.DeviceM α) : SessionM α := do
  let s ← get
  let (result, devices) := (ExceptT.run x).run s.devices
  set { s with devices }
  check result

def modifyRegistry (f : Registry → Registry) : SessionM Unit :=
  onPlatform (modify fun p => { p with registry := f p.registry })

/-! ## Graphs -/

/-- Builds a node. -/
def construct (c : Construction) : SessionM Handle := do
  let (h, workspace) ← check ((← get).workspace.construct c)
  modify ({ · with workspace })
  return h

/-- A graph, if a number is given. -/
def graph (id : Option GraphId) : SessionM Graph := do return (← check ((← get).workspace.graph id)).2

def optimize (id : Option GraphId) : SessionM Graph := do
  let (id, g) ← check ((← get).workspace.graph id)
  let g := g.optimize
  modify fun s => { s with workspace := s.workspace.setGraph id g }
  return g

/-- Marks nodes as outputs. -/
def markOutputs (id : Option GraphId) (outputs : List Handle) : SessionM Unit := do
  let workspace ← check ((← get).workspace.markOutputs id outputs)
  modify ({ · with workspace })

/-! ## Tensors -/

def addTensor (t : Tensor) : SessionM TensorId := do
  let s ← get
  set { s with tensors := s.tensors.push t }
  return s.tensors.size

/-- The tensor with a number, if a number is given. -/
def tensor? (id : Option TensorId) : SessionM (Option (TensorId × Tensor)) := do
  let s ← get
  return id.bind fun id => s.tensors[id]?.map (id, ·)

/-- The tensor with a number, which must exist. -/
def tensor (id : Option TensorId) : SessionM (TensorId × Tensor) := do
  match ← tensor? id with
  | some found => return found
  | none => fail TensorError.fault

def setTensor (id : TensorId) (t : Tensor) : SessionM Unit :=
  modify fun s => { s with tensors := s.tensors.setIfInBounds id t }

/-- The elements of a tensor, which it keeps. -/
def readTensor (id : Option TensorId) : SessionM (Flat × Tensor) := do
  match ← tensor? id with
  | none => fail TensorError.noTensor
  | some (id, t) =>
    let (flat, t) ← platform t.read
    setTensor id t
    return (flat, t)

def summary (id : Option TensorId) (precision : Int) : SessionM String := do
  let (id, t) ← tensor id
  let (text, t) ← onPlatform (t.summary precision)
  setTensor id t
  check text

/-- The text of a tensor, also of none. -/
def tensorText (id : Option TensorId) : SessionM String := do
  match ← tensor? id with
  | none => check (← onPlatform Tensor.empty.text).1
  | some (id, t) =>
    let (text, t) ← onPlatform t.text
    setTensor id t
    check text

/-- Finalizes a tensor, and says whether it holds a value then. -/
def finalizeTensor (id : Option TensorId) : SessionM Bool := do
  match ← tensor? id with
  | none => return false
  | some (id, t) =>
    let t ← onPlatform t.finalize
    setTensor id t
    return t.ok

/-- Evaluates outputs of a graph. Outputs that are the same node have the same tensor. -/
def evaluate (graph : Option GraphId) (outputs : List Handle) : SessionM (List TensorId) := do
  let s ← get
  let (result, workspace) ← onPlatform (s.workspace.evaluate graph outputs)
  modify ({ · with workspace })
  let (tensors, ids) ← check result
  let numbered ← tensors.mapM fun (id, t) => return (id, ← addTensor t)
  return ids.filterMap fun id => numbered.lookup id

/-- Evaluates one node. -/
def toTensor (h : Handle) : SessionM TensorId := do
  if !(← get).workspace.isOk h then fail (ConstructionError.mk "ToTensor" .invalidHandle)
  match ← evaluate (h.map (·.graph)) [h] with
  | id :: _ => return id
  | [] => fail TensorError.fault

/-! ## Backends -/

def addBackend (b : Backend) : SessionM BackendId := do
  let s ← get
  let (id, platform) := s.platform.addBackend b
  set { s with platform }
  return id

/-- Changes the host of a backend, and gives it. -/
def modifyHost (backend : BackendId) (f : Host → Host) : SessionM Host :=
  host backend (do HostM.modifyHost f; return (← get).host : HostM HostError Host)

/-- The shape and the elements of a buffer. -/
def readBuffer (backend : BackendId) (ref : BufferRef) (destination : Layout) : SessionM Flat :=
  host backend (HostM.toPayload ref destination)

/-- Checks an operation against declared capabilities. -/
def checkDeclared (device : Device) (op : Operation) (output : DType) : SessionM Unit := do
  let s ← get
  let (result, registry) := s.platform.registry.checkDeclared device op output
  set { s with platform := { s.platform with registry } }
  check result

end SessionM

end LazyTensor
