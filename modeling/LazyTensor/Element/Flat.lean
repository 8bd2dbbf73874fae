import LazyTensor.Element.Scalar
import LazyTensor.Element.Storage
import LazyTensor.Number.Decimal

/-!
# Flat data

The elements of an array in row-major order, all of one type, and the layouts in which such data is
made or handed over.
-/

namespace LazyTensor

/-- The type and the number of elements. -/
structure Layout where
  type : StorageType
  size : Nat
deriving DecidableEq

namespace Layout

/-- Why there is no memory of a data type and a length. -/
inductive Error where
  | noSize (cause : DType.Error)
  | negativeLength
  /-- There are more bytes than can be allocated. -/
  | allocation

instance : Failure Error where
  kind
    | .noSize cause => Failure.kind cause
    | .negativeLength => .abort
    | .allocation => .fault
  message
    | .noSize cause => Failure.message cause
    | .negativeLength => "reflect.MakeSlice: negative len"
    | .allocation => "runtime: allocation size out of range"

/-- The bytes above which nothing can be allocated. -/
def maxBytes : Nat := pow2 48

/-- The layout of a data type and a length. -/
def make (t : DType) (length : Int) : Except Error Layout :=
  match t.storage?, t.bytes with
  | some type, .ok bytes =>
    if length < 0 then .error .negativeLength
    else if maxBytes < bytes * length.toNat then .error .allocation
    else .ok ⟨type, length.toNat⟩
  | _, _ => .error (.noSize (.noSize t))

/-- The name of the type of the whole. -/
def typeName (l : Layout) : String := "[]" ++ l.type.scalarName

end Layout

/-- Elements of one type. -/
structure Flat where
  type : StorageType
  data : Array type.Elem

namespace Flat

def size (x : Flat) : Nat := x.data.size

def layout (x : Flat) : Layout := ⟨x.type, x.size⟩

theorem size_inert {t : InertType} (data : Array (StorageType.inert t).Elem) : size ⟨.inert t, data⟩ = 0 := by
  rcases Nat.eq_zero_or_pos data.size with hzero | hlt
  · exact hzero
  · exact Empty.elim data[0]

/-- Elements that can be computed with. -/
def ofElements (t : ElementType) (data : Array t.Elem) : Flat := ⟨.element t, data⟩

/-- Elements that are all zero. There are none of an inert type. -/
def zeros (l : Layout) : Flat :=
  match l.type with
  | .element t => ofElements t (Array.replicate l.size t.zero)
  | .inert t => ⟨.inert t, #[]⟩

/-- The elements, if they are of the type. -/
def as? (t : ElementType) : Flat → Option (Array t.Elem)
  | ⟨.element s, data⟩ => if h : s = t then some (h ▸ data) else none
  | ⟨.inert _, _⟩ => none

/-- The name of the type of the whole. -/
def typeName (x : Flat) : String := x.layout.typeName

end Flat

namespace ElementType

/-- An element as text. Floating point elements have some number of significant digits, or else the
fewest that read back in the precision they are computed in. -/
def elementText (digits : Option Nat) : (t : ElementType) → t.Elem → String :=
  let float {f : FloatFormat} (x : FloatWord f) : String :=
    match digits with
    | some n => x.textWithDigits n
    | none => x.text
  fun t x => match t.toScalar x with
    | .integer n => toString n
    | .single x => float x
    | .double x => float x

end ElementType

end LazyTensor
