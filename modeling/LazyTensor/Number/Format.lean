import LazyTensor.Number.Power

/-!
# Number formats

The integer and binary floating point formats of array elements, and the words of each format: bit
vectors of the width of the format. All arithmetic on words is defined in `LazyTensor.Number.IntWord`
and `LazyTensor.Number.FloatWord`.
-/

namespace LazyTensor

/-- An integer format: two's complement of some width, or unsigned. -/
structure IntFormat where
  width : Nat
  signed : Bool
deriving DecidableEq

namespace IntFormat

def uint8 : IntFormat := ⟨8, false⟩
def uint32 : IntFormat := ⟨32, false⟩
def int32 : IntFormat := ⟨32, true⟩
def int64 : IntFormat := ⟨64, true⟩

/-- The least value of the format. -/
def least (f : IntFormat) : Int := if f.signed then -(pow2 (f.width - 1)) else 0

/-- The greatest value of the format. -/
def greatest (f : IntFormat) : Int := if f.signed then pow2 (f.width - 1) - 1 else pow2 f.width - 1

end IntFormat

structure IntWord (f : IntFormat) where
  bits : BitVec f.width
deriving DecidableEq

/-- A binary floating point format: one sign bit, then the exponent field, then the fraction. -/
structure FloatFormat where
  exponentBits : Nat
  fractionBits : Nat
deriving DecidableEq

namespace FloatFormat

def half : FloatFormat := ⟨5, 10⟩
def bfloat : FloatFormat := ⟨8, 7⟩
def single : FloatFormat := ⟨8, 23⟩
def double : FloatFormat := ⟨11, 52⟩

/-- The number of bits of a word. -/
def width (f : FloatFormat) : Nat := 1 + f.exponentBits + f.fractionBits

/-- The weight of the sign bit. -/
def signWeight (f : FloatFormat) : Nat := pow2 (f.exponentBits + f.fractionBits)

/-- The weight of the least bit of the exponent field. -/
def exponentWeight (f : FloatFormat) : Nat := pow2 f.fractionBits

/-- The largest exponent field, which marks infinities and NaNs. -/
def exponentLimit (f : FloatFormat) : Nat := pow2 f.exponentBits - 1

/-- The bits of positive infinity. -/
def infinityBits (f : FloatFormat) : Nat := f.exponentLimit * f.exponentWeight

/-- The bits of the NaN that operations return. -/
def nanBits (f : FloatFormat) : Nat := f.infinityBits + pow2 (f.fractionBits - 1)

/-- The exponent of the last place of the subnormal numbers. -/
def leastExponent (f : FloatFormat) : Int := 2 - pow2 (f.exponentBits - 1) - f.fractionBits

end FloatFormat

/-- A word of a floating point format. -/
structure FloatWord (f : FloatFormat) where
  bits : BitVec f.width
deriving DecidableEq

abbrev Half := FloatWord .half
abbrev BFloat := FloatWord .bfloat
abbrev Single := FloatWord .single
abbrev Double := FloatWord .double

end LazyTensor
