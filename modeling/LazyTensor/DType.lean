import LazyTensor.Failure
import LazyTensor.Number.Format
import LazyTensor.Text.Quoted

/-!
# Data types

A data type is known by its number. Eight of them, the element types, can be computed with; the
others have a name and perhaps a size.
-/

namespace LazyTensor

/-- A data type, by its number. -/
structure DType where
  code : Int
deriving DecidableEq

/-- The data types of array elements. -/
inductive ElementType where
  | uint8 | uint32 | int32 | int64 | float16 | bfloat16 | float32 | float64
deriving DecidableEq

namespace DType

/-- The names of the data types, in the order of their numbers. -/
def names : List String := ["InvalidDType", "Bool", "Int8", "Int16", "Int32", "Int64", "Uint8",
  "Uint16", "Uint32", "Uint64", "Float16", "Float32", "Float64", "BFloat16", "Complex64",
  "Complex128", "F8E5M2", "F8E4M3FN", "F8E4M3B11FNUZ", "F8E5M2FNUZ", "F8E4M3FNUZ", "S4", "U4",
  "TOKEN", "S2", "U2", "F8E4M3", "F8E3M4", "F8E8M0FNU", "F4E2M1FN"]

def invalid : DType := ⟨0⟩
def int32 : DType := ⟨4⟩
def int64 : DType := ⟨5⟩
def uint8 : DType := ⟨6⟩
def uint32 : DType := ⟨8⟩
def float16 : DType := ⟨10⟩
def float32 : DType := ⟨11⟩
def float64 : DType := ⟨12⟩
def bfloat16 : DType := ⟨13⟩

/-- The name of a data type; numbers without a name are written out. -/
def name (t : DType) : String :=
  if t.code < 0 then s!"DType({t.code})"
  else names.getD t.code.toNat s!"DType({t.code})"

/-- The data type with a name. -/
def ofName? (s : String) : Option DType := (names.findIdx? (· == s)).map fun i => ⟨i⟩

/-- The element type of a data type that can be computed with. -/
def element? (t : DType) : Option ElementType :=
  if t = uint8 then some .uint8
  else if t = uint32 then some .uint32
  else if t = int32 then some .int32
  else if t = int64 then some .int64
  else if t = float16 then some .float16
  else if t = bfloat16 then some .bfloat16
  else if t = float32 then some .float32
  else if t = float64 then some .float64
  else none

/-- Bytes of one element, by the number of the data type. -/
def sizes : List Nat := [0, 1, 1, 2, 4, 8, 1, 2, 4, 8, 2, 4, 8, 2, 8, 16]

/-- The bytes of one element, for the data types that have a size. -/
def bytes? (t : DType) : Option Nat :=
  if 0 < t.code then sizes[t.code.toNat]? else none

/-- The data type has no size. -/
inductive Error where
  | noSize (t : DType)

instance : Failure Error where
  kind _ := .plain
  message | .noSize t => s!"unknown dtype {Text.quote t.name} ({t.code}) in DType.GoType"

/-- The bytes of one element. -/
def bytes (t : DType) : Except Error Nat :=
  match t.bytes? with
  | some n => .ok n
  | none => .error (.noSize t)

end DType

namespace ElementType

/-- All element types, in the order in which they are listed. -/
def all : List ElementType :=
  [.uint8, .uint32, .int32, .int64, .float16, .bfloat16, .float32, .float64]

def dtype : ElementType → DType
  | .uint8 => .uint8
  | .uint32 => .uint32
  | .int32 => .int32
  | .int64 => .int64
  | .float16 => .float16
  | .bfloat16 => .bfloat16
  | .float32 => .float32
  | .float64 => .float64

/-- Every element type is the one of its data type. -/
theorem element?_dtype (t : ElementType) : t.dtype.element? = some t := by
  cases t <;> rfl

/-- The name of single elements. -/
def scalarName : ElementType → String
  | .uint8 => "uint8"
  | .uint32 => "uint32"
  | .int32 => "int32"
  | .int64 => "int64"
  | .float16 => "float16.Float16"
  | .bfloat16 => "bfloat16.BFloat16"
  | .float32 => "float32"
  | .float64 => "float64"

def isFloat : ElementType → Bool
  | .float16 | .bfloat16 | .float32 | .float64 => true
  | _ => false

def isHalf : ElementType → Bool
  | .float16 | .bfloat16 => true
  | _ => false

def isUnsigned : ElementType → Bool
  | .uint8 | .uint32 => true
  | _ => false

def Elem : ElementType → Type
  | .uint8 => IntWord .uint8
  | .uint32 => IntWord .uint32
  | .int32 => IntWord .int32
  | .int64 => IntWord .int64
  | .float16 => Half
  | .bfloat16 => BFloat
  | .float32 => Single
  | .float64 => Double

end ElementType

namespace DType

/-- Whether the data type is an element type. -/
def isSupported (t : DType) : Bool := t.element?.isSome

def isFloat (t : DType) : Bool := t.element?.any (·.isFloat)
def isHalf (t : DType) : Bool := t.element?.any (·.isHalf)
def isUnsigned (t : DType) : Bool := t.element?.any (·.isUnsigned)
def isInteger (t : DType) : Bool := t.element?.any (!·.isFloat)

end DType

end LazyTensor
