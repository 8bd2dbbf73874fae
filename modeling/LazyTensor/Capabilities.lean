import LazyTensor.Operation.Basic

/-!
# Capabilities

What a backend can compute: a set of operations on a set of data types.
-/

namespace LazyTensor

/-- The operations and data types that a backend supports. -/
structure Capabilities where
  operations : List OpKind
  dtypes : List DType

namespace Capabilities

/-- The host computes every operation on every element type. -/
def host : Capabilities := ⟨OpKind.operations, ElementType.all.map (·.dtype)⟩

/-- Shaders compute every operation on the element types of 32 bits. -/
def shader : Capabilities := ⟨OpKind.operations, [.float32, .int32, .uint32]⟩

inductive Error where
  | operation (kind : OpKind) (backend : String)
  | dtype (dtype : DType) (kind : OpKind) (backend : String)

instance : Failure Error where
  kind _ := .compilation
  message e :=
    let reason := match e with
      | .operation kind backend => s!"op {kind.name} not supported by backend {backend}"
      | .dtype dtype kind backend =>
        s!"dtype {dtype.name} not supported by backend {backend} (op {kind.name})"
    context reason FailureKind.compilation.cause

/-- The kind of operation and the data type are supported. -/
def check (c : Capabilities) (backend : String) (kind : OpKind) (dtype : DType) : Except Error Unit := do
  if kind ∉ c.operations then throw (.operation kind backend)
  if dtype ∉ c.dtypes then throw (.dtype dtype kind backend)

/-- The operation is supported with its output's data type, and a cast also with that of its operand. -/
def checkOperation (c : Capabilities) (backend : String) (op : Operation) (output : DType) :
    Except Error Unit := do
  c.check backend op.kind output
  if let .cast source := op then c.check backend .cast source

end Capabilities

end LazyTensor
