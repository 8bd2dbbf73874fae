import LazyTensor.DType
import LazyTensor.Number.IntWord
import LazyTensor.Text.Listing

/-!
# Shapes

A shape is a data type with a list of dimensions, in row-major order. Sizes and strides are kept in
signed words of 64 bits, and memory in unsigned ones.
-/

namespace LazyTensor

/-- A data type and the dimensions of the axes. -/
structure Shape where
  dtype : DType
  dims : List Int
deriving DecidableEq

namespace Shape

/-- The shape without data type and axes. -/
def invalid : Shape := ⟨.invalid, []⟩

def text (s : Shape) : String :=
  if s.dims.isEmpty then s!"({s.dtype.name})" else s!"({s.dtype.name}){Text.integers s.dims}"

inductive Error where
  /-- An axis of the shape to be made has a dimension that is not positive. -/
  | notPositive (dtype : DType) (dims : List Int) (axis : Nat) (dim : Int)
  /-- There is no such axis. -/
  | noAxis (axis : Int) (shape : Shape)

instance : Failure Error where
  kind _ := .plain
  message
    | .notPositive dtype dims axis dim =>
      s!"shapes.Make({dtype.name}, {Text.integers dims}): axis {axis} has dimension {dim}, " ++
        "dimensions must be positive"
    | .noAxis axis shape => s!"Shape.Dim({axis}) out-of-bounds for {shape.text}"

/-- The first axis whose dimension is not positive, with the dimension. -/
def notPositive? (dims : List Int) : Option (Nat × Int) :=
  (dims.findIdx? (· ≤ 0)).map fun axis => (axis, dims.getD axis 0)

/-- The shape with these dimensions, which must be positive. -/
def make (dtype : DType) (dims : List Int) : Except Error Shape :=
  match notPositive? dims with
  | some (axis, dim) => .error (.notPositive dtype dims axis dim)
  | none => .ok ⟨dtype, dims⟩

/-- Whether the shape has a data type. -/
def ok (s : Shape) : Bool := s.dtype != .invalid

def rank (s : Shape) : Nat := s.dims.length

def isScalar (s : Shape) : Bool := s.ok && s.rank == 0

/-- The dimension of an axis; negative axes count from the end. -/
def dim (s : Shape) (axis : Int) : Except Error Int :=
  let i := if axis < 0 then axis + s.rank else axis
  if i < 0 then .error (.noAxis axis s)
  else match s.dims[i.toNat]? with
    | some d => .ok d
    | none => .error (.noAxis axis s)

/-- The number of elements, in 64 bits. -/
def size (s : Shape) : Int := s.dims.foldl (fun n d => wrap64 (n * d)) 1

/-- The bytes of all elements, in 64 bits. -/
def memory (s : Shape) : Except DType.Error UInt64 := do
  let bytes ← s.dtype.bytes
  return UInt64.ofNat bytes * UInt64.ofNat (s.size % pow2 64).toNat

/-- The bytes of all elements; none for a data type without size. -/
def footprint (s : Shape) : UInt64 :=
  match s.memory with
  | .ok n => n
  | .error _ => 0

def withDType (s : Shape) (dtype : DType) : Shape := { s with dtype }

/-- How far the flat index moves with each axis, in 64 bits; the last axis moves by one. -/
def stridesOf : List Int → List Int
  | [] => []
  | [_] => [1]
  | _ :: d :: dims =>
    match stridesOf (d :: dims) with
    | [] => []
    | stride :: strides => wrap64 (stride * d) :: stride :: strides

def strides (s : Shape) : List Int := stridesOf s.dims

end Shape

end LazyTensor
