import LazyTensor.Registry
import LazyTensor.Tensor.Nested
import LazyTensor.Tensor.Summary

/-!
# Tensors

A tensor is a value in a buffer of some backend. Its elements are read once and kept. When it is
finalized, the buffer is given back and it holds nothing more.
-/

namespace LazyTensor

/-- A buffer with the backend that it belongs to. -/
structure Held where
  backend : BackendId
  buffer : BufferId
deriving DecidableEq

/-- A value in a buffer. -/
structure Tensor where
  shape : Shape
  device : Device
  data : Option Held
  /-- The elements, once they were read. -/
  flat : Option Flat := none

inductive TensorError where
  | noTensor
  | notMaterialized (shape : Shape)
  | transfer (shape : Shape) (device : Device) (cause : HostError)
  | copyType (typeName : String) (dtype : DType)
  | scalarType (typeName : String) (dtype : DType)
  | notScalar (typeName : String) (shape : Shape)
  /-- A tensor was used that does not exist. -/
  | fault
  | nested (cause : Nested.Error)
  | summary (cause : Summary.Error)

instance : Failure TensorError where
  kind
    | .noTensor | .notMaterialized _ => .notMaterialized
    | .transfer _ _ cause => Failure.kind cause
    | .fault | .nested .allocation | .summary .negativeLength => .fault
    | .nested .negativeLength | .nested .bounds | .summary .bounds => .abort
    | _ => .plain
  message
    | .noTensor => context "nil Tensor" FailureKind.notMaterialized.cause
    | .notMaterialized shape =>
      context s!"Tensor(shape={shape.text})" FailureKind.notMaterialized.cause
    | .transfer shape device cause =>
      context s!"Tensor(shape={shape.text}) failed to transfer from {device.text}" (Failure.message cause)
    | .copyType typeName dtype =>
      s!"CopyFlatData[{typeName}] is incompatible with Tensor's dtype {dtype.name}"
    | .scalarType typeName dtype =>
      s!"ToScalar[{typeName}] is incompatible with Tensor's dtype {dtype.name}"
    | .notScalar typeName shape =>
      s!"ToScalar[{typeName}] requires scalar Tensor, got shape {shape.text} instead"
    | .fault | .summary .negativeLength => FailureKind.fault.cause
    | .nested .negativeLength => Failure.message Layout.Error.negativeLength
    | .nested .allocation => Failure.message Layout.Error.allocation
    | .nested .bounds => "reflect.Value.Slice: slice index out of bounds"
    | .summary .bounds => "reflect: slice index out of range"

namespace Tensor

/-- The tensor that was never given a value. -/
def empty : Tensor := { shape := .invalid, device := .cpu, data := none }

/-- The tensor of a buffer. Nothing is read. -/
def ofBuffer (backend : BackendId) (ref : BufferRef) : PlatformM HostError Tensor := do
  let shape ← PlatformM.onHost backend (HostM.shapeOf ref)
  let device := (((← get).backends[backend]?).map (·.device)).getD .cpu
  let buffer := match ref with
    | .host id => id
    | _ => 0
  return { shape, device, data := some ⟨backend, buffer⟩ }

/-- Whether the tensor holds a value. -/
def ok (t : Tensor) : Bool := t.shape.ok && (t.flat.isSome || t.data.isSome)

/-- Gives the buffer back, if there is one, and forgets the elements. -/
def finalize (t : Tensor) : StateM Platform Tensor := do
  if let some held := t.data then
    let _ ← (PlatformM.onHost held.backend (HostM.finalizeBuffer (.host held.buffer))).run
  return { t with data := none, flat := none }

/-- The elements, and the tensor that keeps them. -/
def read (t : Tensor) : PlatformM TensorError (Flat × Tensor) := do
  if let some flat := t.flat then return (flat, t)
  if !t.ok then throw (.notMaterialized t.shape)
  match t.data, t.shape.dtype.storage? with
  | some held, some type =>
    let destination : Layout := ⟨type, t.shape.size.toNat⟩
    let flat ← ExceptT.adapt (.transfer t.shape t.device)
      (PlatformM.onHost held.backend (HostM.toPayload (.host held.buffer) destination))
    return (flat, { t with flat := some flat })
  | _, _ => throw (.notMaterialized t.shape)

/-- The elements as nested data; a scalar is one element. -/
def nested (t : Tensor) (flat : Flat) : Except TensorError (Nested flat.type.Elem) :=
  if t.shape.isScalar then
    match flat.data[0]? with
    | some x => .ok (.leaf x)
    | none => .error .fault
  else (Nested.ofFlat t.shape.dims flat.data).mapError .nested

/-- The elements, which must be of a type. -/
def copyAs (t : Tensor) (type : ElementType) (flat : Flat) : Except TensorError Flat :=
  if flat.type = .element type then .ok flat
  else .error (.copyType ("[]" ++ type.scalarName) t.shape.dtype)

/-- The element of a scalar, which must be of a type. -/
def scalarAs (t : Tensor) (type : ElementType) (flat : Flat) : Except TensorError type.Elem :=
  if t.shape.dtype ≠ type.dtype then .error (.scalarType type.scalarName t.shape.dtype)
  else if !t.shape.isScalar then .error (.notScalar type.scalarName t.shape)
  else match (flat.as? type).bind (·[0]?) with
    | some x => .ok x
    | none => .error .fault

/-- The summary with a precision. A tensor without a value is described by its error. -/
def summary (t : Tensor) (precision : Int) : StateM Platform (Except TensorError String × Tensor) := do
  match ← (read t).run with
  | .error e => return (.ok (context t.shape.text (Failure.message e)), t)
  | .ok (flat, t) =>
    return ((Summary.text t.shape flat precision).mapError .summary, t)

def text (t : Tensor) : StateM Platform (Except TensorError String × Tensor) :=
  if t.ok then t.summary 4
  else return (.ok s!"Tensor({t.shape.dtype.name}, not materialized)", t)

end Tensor

end LazyTensor
