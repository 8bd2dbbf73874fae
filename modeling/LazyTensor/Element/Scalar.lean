import LazyTensor.DType
import LazyTensor.Number.FloatWord
import LazyTensor.Number.IntWord

/-!
# Elements as numbers

A scalar is the number that an element stands for, in the precision in which it is converted: an exact
integer, or a word of single or double precision. Every element type reads scalars from its elements
and rounds, wraps or clamps scalars to its elements.
-/

namespace LazyTensor

/-- The number as an integer of a format, truncated toward zero. It is clamped by its order among the
words of double precision: the greatest integer of 64 bits is none of them, and the least word above it
stands for it. NaN gives zero. -/
def Double.toInteger (f : IntFormat) (x : Double) : Int :=
  if x.isNaN then 0
  else if x.le (.ofInt f.least) then f.least
  else if (FloatWord.ofInt f.greatest).le x then f.greatest
  else x.datum.truncOrLeast 64

/-- A number on its way from one element type to another. -/
inductive Scalar where
  | integer (n : Int)
  | single (x : Single)
  | double (x : Double)

namespace Scalar

/-- The number as an integer word. Integers wrap; other numbers are truncated toward zero and clamped
to the format in double precision. -/
def toIntWord {f : IntFormat} : Scalar → IntWord f
  | .integer n => .ofInt n
  | .single x => .ofInt (Double.toInteger f x.convert)
  | .double x => .ofInt (Double.toInteger f x)

def toSingle : Scalar → Single
  | .integer n => .ofInt n
  | .single x => x
  | .double x => x.convert

def toDouble : Scalar → Double
  | .integer n => .ofInt n
  | .single x => x.convert
  | .double x => x

end Scalar

/-- The half precision word nearest to a single precision one. -/
def Half.ofSingle (x : Single) : Half := x.convert

/-- The single precision word cut off after the upper 16 bits. -/
def BFloat.ofSingle (x : Single) : BFloat := ⟨BitVec.ofNat _ (x.bits.toNat / pow2 16)⟩

/-- The single precision word with these upper 16 bits. -/
def BFloat.toSingle (x : BFloat) : Single := ⟨BitVec.ofNat _ (x.bits.toNat * pow2 16)⟩

namespace ElementType

/-- The number that an element stands for. -/
def toScalar : (t : ElementType) → t.Elem → Scalar
  | .uint8, x => .integer (IntWord.value x)
  | .uint32, x => .integer (IntWord.value x)
  | .int32, x => .integer (IntWord.value x)
  | .int64, x => .integer (IntWord.value x)
  | .float16, x => .single (FloatWord.convert x)
  | .bfloat16, x => .single (BFloat.toSingle x)
  | .float32, x => .single x
  | .float64, x => .double x

/-- The element for a number. The types of 16 bits take it in single precision. -/
def ofScalar : (t : ElementType) → Scalar → t.Elem
  | .uint8, x => x.toIntWord
  | .uint32, x => x.toIntWord
  | .int32, x => x.toIntWord
  | .int64, x => x.toIntWord
  | .float16, x => Half.ofSingle x.toSingle
  | .bfloat16, x => BFloat.ofSingle x.toSingle
  | .float32, x => x.toSingle
  | .float64, x => x.toDouble

def zero (t : ElementType) : t.Elem := t.ofScalar (.integer 0)

/-- The bits of one element. -/
def width : ElementType → Nat
  | .uint8 => 8
  | .float16 | .bfloat16 => 16
  | .uint32 | .int32 | .float32 => 32
  | .int64 | .float64 => 64

/-- The bits of an element, as a number. -/
def toBits : (t : ElementType) → t.Elem → Nat
  | .uint8, x => x.bits.toNat
  | .uint32, x => x.bits.toNat
  | .int32, x => x.bits.toNat
  | .int64, x => x.bits.toNat
  | .float16, x => x.bits.toNat
  | .bfloat16, x => x.bits.toNat
  | .float32, x => x.bits.toNat
  | .float64, x => x.bits.toNat

/-- The element with the given bits. -/
def ofBits : (t : ElementType) → Nat → t.Elem
  | .uint8, n => IntWord.mk (BitVec.ofNat _ n)
  | .uint32, n => IntWord.mk (BitVec.ofNat _ n)
  | .int32, n => IntWord.mk (BitVec.ofNat _ n)
  | .int64, n => IntWord.mk (BitVec.ofNat _ n)
  | .float16, n => FloatWord.mk (BitVec.ofNat _ n)
  | .bfloat16, n => FloatWord.mk (BitVec.ofNat _ n)
  | .float32, n => FloatWord.mk (BitVec.ofNat _ n)
  | .float64, n => FloatWord.mk (BitVec.ofNat _ n)

end ElementType

end LazyTensor
