import LazyTensor.DType

/-!
# Stored types

Buffers can be made for every data type with a size. Elements exist only of the element types: a buffer
of another type, which nothing can compute with, is empty.
-/

namespace LazyTensor

/-- The data types that have a size but cannot be computed with. -/
inductive InertType where
  | bool | int8 | int16 | uint16 | uint64 | complex64 | complex128
deriving DecidableEq

namespace InertType

/-- All inert types, in the order of the numbers of their data types. -/
def all : List InertType := [.bool, .int8, .int16, .uint16, .uint64, .complex64, .complex128]

def dtype : InertType → DType
  | .bool => ⟨1⟩
  | .int8 => ⟨2⟩
  | .int16 => ⟨3⟩
  | .uint16 => ⟨7⟩
  | .uint64 => ⟨9⟩
  | .complex64 => ⟨14⟩
  | .complex128 => ⟨15⟩

/-- The name of single elements. -/
def scalarName : InertType → String
  | .bool => "bool"
  | .int8 => "int8"
  | .int16 => "int16"
  | .uint16 => "uint16"
  | .uint64 => "uint64"
  | .complex64 => "complex64"
  | .complex128 => "complex128"

end InertType

/-- The type of the elements of a buffer. -/
inductive StorageType where
  | element (t : ElementType)
  | inert (t : InertType)
deriving DecidableEq

namespace StorageType

def dtype : StorageType → DType
  | .element t => t.dtype
  | .inert t => t.dtype

/-- The name of single elements. -/
def scalarName : StorageType → String
  | .element t => t.scalarName
  | .inert t => t.scalarName

/-- One element of the type. There is none of an inert type. -/
def Elem : StorageType → Type
  | .element t => t.Elem
  | .inert _ => Empty

end StorageType

/-- The type of the elements of a buffer for a data type. -/
def DType.storage? (t : DType) : Option StorageType :=
  match t.element? with
  | some e => some (.element e)
  | none => (InertType.all.find? (·.dtype = t)).map .inert

/-- Every stored type is the one of its data type. -/
theorem StorageType.storage?_dtype (t : StorageType) : t.dtype.storage? = some t := by
  cases t with
  | element t => cases t <;> rfl
  | inert t => cases t <;> rfl

end LazyTensor
