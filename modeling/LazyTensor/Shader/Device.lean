import LazyTensor.Account
import LazyTensor.Capabilities
import LazyTensor.Device
import LazyTensor.Host.Execute
import LazyTensor.KernelCache
import LazyTensor.Shader.Launch

/-!
# Shader backends without a device

What a shader backend checks before it needs its device: operations, buffers, parameters, and that
the kernel has a source. Then it fails, because no device is there.
-/

namespace LazyTensor.Shader

structure DeviceBuffer where
  shape : Shape
  bytes : UInt64
  valid : Bool

/-- A shader backend. -/
structure DeviceBackend where
  device : Device
  workgroupSize : Int
  account : Account
  finalized : Bool

/-- The shader backends, their buffers, and the kernels of all of them. -/
structure DeviceState where
  backends : Array DeviceBackend := #[]
  buffers : Array DeviceBuffer := #[]
  kernels : KernelCache Kernel := { name := backendName }

/-- Why a kernel is not compiled. -/
inductive CompileError where
  | source (cause : SourceError)
  /-- There is no device to compile it for. -/
  | noDevice

def CompileError.reason : CompileError → String
  | .source cause => cause.reason
  | .noDevice => s!"{backendName}: no device"

/-- Errors of shader backends. -/
inductive DeviceError where
  | finalized
  | unsupported (cause : Capabilities.Error)
  | unsupportedDType (dtype : DType)
  | input (op : Operation) (index : Nat) (cause : BufferError)
  | launch (cause : LaunchError)
  | compile (cause : KernelCache.Error CompileError)
  | buffer (cause : BufferError)
  | finalizeBuffer (cause : BufferError)
  | notSlice (typeName : String)
  | flatType (scalarName : String) (dtype : DType)
  | flatLength (length : Nat) (shape : Shape)
  | limit (cause : Account.Error)
  | readType (typeName : String) (dtype : DType)
  | readLength (length : Nat) (shape : Shape)
  | noSize (cause : DType.Error)
  /-- The device itself is needed. -/
  | noDevice

instance : Failure DeviceError where
  kind
    | .finalized | .input .. => .execution
    | .unsupported cause => Failure.kind cause
    | .unsupportedDType _ | .compile _ => .compilation
    | .launch cause => Failure.kind cause
    | .limit cause => Failure.kind cause
    | .noDevice => .fault
    | _ => .plain
  message
    | .finalized => context s!"backend {backendName} already finalized" FailureKind.execution.cause
    | .unsupported cause => Failure.message cause
    | .unsupportedDType dtype =>
      context s!"dtype {dtype.name} not supported by backend {backendName}" FailureKind.compilation.cause
    | .input op index cause => context
      (context s!"{op.text} input #{index}" (Failure.message cause)) FailureKind.execution.cause
    | .launch cause => Failure.message cause
    | .compile cause =>
      context (cause.reason CompileError.reason) FailureKind.compilation.cause
    | .buffer cause => Failure.message cause
    | .finalizeBuffer cause => context "BufferFinalize" (Failure.message cause)
    | .notSlice typeName => s!"BufferFromFlatData: flat must be a slice, got {typeName}"
    | .flatType scalarName dtype =>
      s!"flat data type ({scalarName}) does not match shape DType ({dtype.name})"
    | .flatLength length shape =>
      s!"flat data has {length} elements, shape {shape.text} requires {shape.size}"
    | .limit cause => context s!"backend {backendName}" (Failure.message cause)
    | .readType typeName dtype =>
      s!"BufferToFlatData: flat ({typeName}) doesn't match buffer dtype {dtype.name}"
    | .readLength length shape =>
      s!"BufferToFlatData: flat has {length} elements, buffer shape {shape.text} requires {shape.size}"
    | .noSize cause => Failure.message cause
    | .noDevice => FailureKind.fault.cause

/-- Steps on the shader backends. The state is kept when one fails. -/
abbrev DeviceM := ExceptT DeviceError (StateM DeviceState)

namespace DeviceBackend

def description (b : DeviceBackend) : String :=
  s!"WebGPU compute shaders on {b.device.text} (workgroup size {b.workgroupSize})"

/-- The key of a kernel in the cache of all backends. -/
def cacheKey (b : DeviceBackend) (signature : String) : String := s!"{b.device.text}#0|{signature}"

end DeviceBackend

namespace DeviceState

def addBackend (s : DeviceState) (b : DeviceBackend) : Nat × DeviceState :=
  (s.backends.size, { s with backends := s.backends.push b })

def addBuffer (s : DeviceState) (shape : Shape) (valid : Bool) :
    Except DType.Error (Nat × DeviceState) := do
  let bytes ← alignedSize shape
  return (s.buffers.size, { s with buffers := s.buffers.push ⟨shape, bytes, valid⟩ })

/-- A buffer of a device that can be used. -/
def live (s : DeviceState) : BufferRef → Except BufferError (Nat × DeviceBuffer)
  | .shader id =>
    match s.buffers[id]? with
    | some b => if b.valid then .ok (id, b) else .error (.shaderFinalized b.shape)
    | none => .error (.foreign .absent backendName)
  | ref => .error (.foreign ref backendName)

/-- The shapes of inputs from number `i` on. -/
def inputShapes (s : DeviceState) (op : Operation) : (i : Nat) → List BufferRef → Except DeviceError (List Shape)
  | _, [] => .ok []
  | i, ref :: refs =>
    match s.live ref with
    | .error e => .error (.input op i e)
    | .ok (_, b) => (s.inputShapes op (i + 1) refs).map (b.shape :: ·)

end DeviceState

namespace DeviceM

/-- Compiles the kernel of an operation, which takes a device. -/
def compile (b : DeviceBackend) (op : Operation) (inputs : List Shape) (output : Shape) : DeviceM Kernel := do
  let s ← get
  let key := b.cacheKey (signature op inputs output b.workgroupSize)
  let (result, kernels) := s.kernels.get key fun cache =>
    match kernel op inputs output b.workgroupSize with
    | .error e => (.error (.source e), cache)
    | .ok _ => (.error .noDevice, cache)
  set { s with kernels }
  match result with
  | .ok k => return k
  | .error e => throw (.compile e)

/-- Executes an operation, up to the point where the device is needed. -/
def execute (b : DeviceBackend) (op : Operation) (inputs : List BufferRef) (output : Shape) : DeviceM Unit := do
  if b.finalized then throw .finalized
  match Capabilities.shader.checkOperation backendName op output.dtype with
  | .error e => throw (.unsupported e)
  | .ok _ =>
    let shapes ← (← get).inputShapes op 0 inputs
    match launchParams op shapes output b.workgroupSize with
    | .error e => throw (.launch e)
    | .ok _ =>
      let _ ← compile b op shapes output
      throw .noDevice

/-- Checks data for a new buffer, up to the point where the device is needed. -/
def fromPayload (id : Nat) (b : DeviceBackend) (payload : HostM.Payload) (shape : Shape) : DeviceM Unit := do
  if b.finalized then throw .finalized
  match payload with
  | .scalar typeName => throw (.notSlice typeName)
  | .flat data =>
    if data.type.dtype ≠ shape.dtype then throw (.flatType data.type.scalarName shape.dtype)
    if (data.size : Int) ≠ shape.size then throw (.flatLength data.size shape)
    if shape.dtype ∉ Capabilities.shader.dtypes then throw (.unsupportedDType shape.dtype)
    match alignedSize shape with
    | .error e => throw (.noSize e)
    | .ok bytes =>
      match b.account.allocate bytes with
      | .error e => throw (.limit e)
      | .ok account =>
        modify fun s => { s with backends := s.backends.modify id ({ · with account }) }
        throw .noDevice

/-- Checks a destination for the elements of a buffer, up to the point where the device is needed. -/
def toPayload (ref : BufferRef) (destination : Layout) : DeviceM Unit := do
  match (← get).live ref with
  | .error e => throw (.buffer e)
  | .ok (_, b) =>
    match b.shape.dtype.bytes with
    | .error e => throw (.noSize e)
    | .ok _ =>
      if destination.type.dtype ≠ b.shape.dtype then throw (.readType destination.typeName b.shape.dtype)
      if (destination.size : Int) ≠ b.shape.size then throw (.readLength destination.size b.shape)
      throw .noDevice

def shapeOf (ref : BufferRef) : DeviceM Shape := do
  match (← get).live ref with
  | .error e => throw (.buffer e)
  | .ok (_, b) => return b.shape

/-- Gives a buffer back. Only a backend that is finalized needs no device for it. -/
def finalizeBuffer (id : Nat) (b : DeviceBackend) (ref : BufferRef) : DeviceM Unit := do
  match (← get).live ref with
  | .error e => throw (.finalizeBuffer e)
  | .ok (buffer, freed) =>
    modify fun s => { s with
      buffers := s.buffers.modify buffer ({ · with valid := false })
      backends := s.backends.modify id fun b => { b with account := b.account.free freed.bytes } }
    if !b.finalized then throw .noDevice

end DeviceM

end LazyTensor.Shader
