import LazyTensor.Element.Scalar
import LazyTensor.Number.Exponential
import LazyTensor.Number.Logarithm
import LazyTensor.Number.Trigonometric
import LazyTensor.Operation.Kind

/-!
# Arithmetic of elements

The elementwise operations on the words in which kernels compute: integer words, and words of single
and double precision. The element types of 16 bits are computed in single precision.
-/

namespace LazyTensor

/-- Types with the elementwise operations. `none` is the result of a division of integers by zero. -/
class Arithmetic (α : Type) where
  unary : UnaryOp → α → Option α
  binary : BinaryOp → α → α → Option α
  mulAdd : α → α → α → α

namespace IntWord

variable {f : IntFormat}

/-- The width of the signed words, of 32 or 64 bits, that hold all values of the format. -/
def conversionWidth (f : IntFormat) : Nat :=
  if f.width < 32 ∨ (f.width = 32 ∧ f.signed) then 32 else 64

/-- A function of double precision applied to the value. The result is truncated, and the least
integer of the conversion if it is too large or no number. -/
def viaDouble (fn : Double → Double) (x : IntWord f) : IntWord f :=
  ofInt ((fn (.ofInt x.value)).datum.truncOrLeast (conversionWidth f))

def abs (x : IntWord f) : IntWord f := if x.value < 0 then x.neg else x

def unary : UnaryOp → IntWord f → Option (IntWord f)
  | .neg, x => some x.neg
  | .abs, x => some x.abs
  | .sqrt, x => some (x.viaDouble FloatWord.sqrt)
  | .exp, x => some (x.viaDouble Double.exp)
  | .log, x => some (x.viaDouble Double.log)
  | .sin, x => some (x.viaDouble Double.sin)
  | .cos, x => some (x.viaDouble Double.cos)
  | .tanh, x => some (x.viaDouble Double.tanh)
  | .reciprocal, x => (ofInt 1).div? x
  | .square, x => some (x.mul x)
  | .relu, x => some (x.max zero)

def binary : BinaryOp → IntWord f → IntWord f → Option (IntWord f)
  | .add, x, y => some (x.add y)
  | .sub, x, y => some (x.sub y)
  | .mul, x, y => some (x.mul y)
  | .div, x, y => x.div? y
  | .max, x, y => some (x.max y)
  | .min, x, y => some (x.min y)

instance : Arithmetic (IntWord f) where
  unary := unary
  binary := binary
  mulAdd x y z := (x.mul y).add z

end IntWord

namespace FloatWord

variable {f : FloatFormat}

/-- A function of double precision, with the result rounded to the format. -/
def viaDouble (fn : Double → Double) (x : FloatWord f) : FloatWord f := (fn x.convert).convert

/-- The absolute value; `-0` and NaN stay as they are. -/
def abs (x : FloatWord f) : FloatWord f := if x.lt zero then x.neg else x

def unary : UnaryOp → FloatWord f → FloatWord f
  | .neg, x => x.neg
  | .abs, x => x.abs
  | .sqrt, x => x.viaDouble FloatWord.sqrt
  | .exp, x => x.viaDouble Double.exp
  | .log, x => x.viaDouble Double.log
  | .sin, x => x.viaDouble Double.sin
  | .cos, x => x.viaDouble Double.cos
  | .tanh, x => x.viaDouble Double.tanh
  | .reciprocal, x => (ofInt 1 : FloatWord f).div x
  | .square, x => x.mul x
  | .relu, x => x.max zero

def binary : BinaryOp → FloatWord f → FloatWord f → FloatWord f
  | .add, x, y => x.add y
  | .sub, x, y => x.sub y
  | .mul, x, y => x.mul y
  | .div, x, y => x.div y
  | .max, x, y => x.max y
  | .min, x, y => x.min y

/-- `x * y + z` rounded once in double precision, and then to the format. -/
def mulAddViaDouble (x y z : FloatWord f) : FloatWord f :=
  ((x.convert : Double).mulAdd y.convert z.convert).convert

instance : Arithmetic (FloatWord f) where
  unary op x := some (x.unary op)
  binary op x y := some (x.binary op y)
  mulAdd := mulAddViaDouble

end FloatWord

namespace ElementType

/-- The words in which kernels compute with elements of the type. -/
def Lane : ElementType → Type
  | .uint8 => IntWord .uint8
  | .uint32 => IntWord .uint32
  | .int32 => IntWord .int32
  | .int64 => IntWord .int64
  | .float16 | .bfloat16 | .float32 => Single
  | .float64 => Double

instance : (t : ElementType) → Arithmetic t.Lane
  | .uint8 => inferInstanceAs (Arithmetic (IntWord _))
  | .uint32 => inferInstanceAs (Arithmetic (IntWord _))
  | .int32 => inferInstanceAs (Arithmetic (IntWord _))
  | .int64 => inferInstanceAs (Arithmetic (IntWord _))
  | .float16 => inferInstanceAs (Arithmetic (FloatWord _))
  | .bfloat16 => inferInstanceAs (Arithmetic (FloatWord _))
  | .float32 => inferInstanceAs (Arithmetic (FloatWord _))
  | .float64 => inferInstanceAs (Arithmetic (FloatWord _))

/-- An element as the word to compute with. -/
def widen : (t : ElementType) → t.Elem → t.Lane
  | .float16, x => (FloatWord.convert x : Single)
  | .bfloat16, x => BFloat.toSingle x
  | .uint8, x => x
  | .uint32, x => x
  | .int32, x => x
  | .int64, x => x
  | .float32, x => x
  | .float64, x => x

/-- A computed word as an element. -/
def narrow : (t : ElementType) → t.Lane → t.Elem
  | .float16, x => Half.ofSingle x
  | .bfloat16, x => BFloat.ofSingle x
  | .uint8, x => x
  | .uint32, x => x
  | .int32, x => x
  | .int64, x => x
  | .float32, x => x
  | .float64, x => x

end ElementType

end LazyTensor
