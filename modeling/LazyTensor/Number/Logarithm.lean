import LazyTensor.Number.Polynomial

/-!
# Logarithm

A double precision word is written as `m * 2 ^ k` with `m` near one. With `f = m - 1` and
`s = f / (2 + f)` the logarithm of `m` is `f - f * f / 2 + s * (f * f / 2 + r)`, where `r` is a
polynomial in the square of `s`.
-/

namespace LazyTensor.Double

/-- A number `mantissa * 2 ^ exponent`. -/
structure Scaled where
  mantissa : Double
  exponent : Int

/-- The square root of one half. -/
def rootHalf : Double := ⟨0x3FE6A09E667F3BCD⟩

/-- The fraction and the exponent field of a positive word, with the mantissa above the root of one half
and at most twice as large. The fraction is taken to follow a leading one also where the exponent
field is zero, so that the logarithms of all subnormal numbers are near that of the least normal one. -/
def scaled (x : Double) : Scaled :=
  let weight := FloatFormat.double.exponentWeight
  let mantissa : Double := .ofMagnitude false (1022 * weight + x.magnitude % weight)
  let exponent : Int := (x.magnitude / weight : Nat) - 1022
  if rootHalf.lt mantissa then ⟨mantissa, exponent⟩ else ⟨mantissa.scale 1, exponent - 1⟩

/-- The coefficients of the odd powers of the square. -/
def logOdd : List Double :=
  [⟨0x3FC2F112DF3E5244⟩, ⟨0x3FC7466496CB03DE⟩, ⟨0x3FD2492494229359⟩, ⟨0x3FE5555555555593⟩]

/-- The coefficients of the even powers of the square. -/
def logEven : List Double := [⟨0x3FC39A09D078C69F⟩, ⟨0x3FCC71C51D8E78AF⟩, ⟨0x3FD999999997FA04⟩]

/-- The leading bits of the logarithm of two. -/
def logTwoHigh : Double := ⟨0x3FE62E42FEE00000⟩

/-- The logarithm of two less its leading bits. -/
def logTwoLow : Double := ⟨0x3DEA39EF35793C76⟩

/-- The logarithm of a scaled number. -/
def Scaled.log (x : Scaled) : Double :=
  let k : Double := .ofInt x.exponent
  let f := x.mantissa.sub (.ofInt 1)
  let s := f.div ((FloatWord.ofInt 2).add f)
  let square := s.mul s
  let fourth := square.mul square
  let r := (square.mul (fourth.horner logOdd)).add (fourth.mul (fourth.horner logEven))
  let half := (f.scale (-1)).mul f
  let correction := (s.mul (half.add r)).add (k.mul logTwoLow)
  (k.mul logTwoHigh).sub ((half.sub correction).sub f)

/-- The natural logarithm. That of zero is negative and infinite, and a negative number has none. -/
def log (x : Double) : Double :=
  if x.isNaN then x
  else if x.isZero then .infinity true
  else if x.negative then .nan
  else if x.isInfinite then x
  else (scaled x).log

end LazyTensor.Double
