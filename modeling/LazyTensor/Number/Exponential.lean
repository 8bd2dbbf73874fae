import LazyTensor.Number.Polynomial

/-!
# Exponential and hyperbolic tangent

The exponential of a double precision word `x` is `2 ^ k` times the exponential of `x - k * log 2`, for
the whole number `k` nearest to `x / log 2`. The rest is divided by 16; the exponential of the
sixteenth, less one, is a polynomial, and four steps from `y` to `y * (y + 2)` give the sixteenth power.
-/

namespace LazyTensor.Double

/-- One divided by the logarithm of two. -/
def log2e : Double := ⟨0x3FF71547652B82FE⟩

/-- The leading bits of the logarithm of two, so few that products with a whole number of binades are
exact. -/
def ln2High : Double := ⟨0x3FE62E42FEFA3000⟩

/-- The logarithm of two less its leading bits. -/
def ln2Low : Double := ⟨0x3D53DE6AF278ECE6⟩

/-- The logarithm of the greatest finite word. -/
def expBound : Double := ⟨0x40862E42FEFA39EF⟩

/-- `1 / 8!`, ..., `1 / 1!`. -/
def inverseFactorials : List Double :=
  [40320, 5040, 720, 120, 24, 6, 2, 1].map fun n => .ofRatio false 1 n 0

/-- From `exp y - 1` to `exp (2 * y) - 1`. -/
def doubleArgument (y : Double) : Double := y.mul (y.add (.ofInt 2))

/-- The exponential of `x` without its factor `2 ^ k`. -/
def expRest (x : Double) (k : Int) : Double :=
  let whole : Double := .ofInt (-k)
  let rest := whole.mulAdd ln2Low (whole.mulAdd ln2High x)
  let sixteenth := rest.scale (-4)
  let y := sixteenth.mul (sixteenth.fusedHorner inverseFactorials)
  let z := doubleArgument (doubleArgument (doubleArgument y))
  z.mulAdd (z.add (.ofInt 2)) (.ofInt 1)

/-- The exponential. It is infinite as soon as `x / log 2` rounds to 1024, and zero if it is below half of
the least subnormal number. -/
def exp (x : Double) : Double :=
  match x.datum, (x.mul log2e).datum with
  | .nan, _ => x
  | _, .infinite s => if s then .zero else .infinity false
  | _, binades =>
    let k := binades.nearestInt
    if expBound.lt x ∨ 1024 ≤ k then .infinity false
    else if k < -1075 then .zero
    else (expRest x k).scale k

/-- The numerator of the rational function for the hyperbolic tangent of small numbers. -/
def tanhNumerator : List Double := [⟨0xBFEEDC5BAAFD6F4B⟩, ⟨0xC058D26A0E26682D⟩, ⟨0xC0993AC030580563⟩]

/-- The denominator of the rational function for the hyperbolic tangent of small numbers. -/
def tanhDenominator : List Double :=
  [.ofInt 1, ⟨0x405C33F28A581B86⟩, ⟨0x40A176FA0E5535FA⟩, ⟨0x40B2EC102442040C⟩]

/-- From here on the hyperbolic tangent is computed with the exponential. -/
def tanhSmall : Double := .ofRatio false 5 8 0

/-- Beyond this bound the hyperbolic tangent is one: half of the logarithm of `2 ^ 127`. -/
def tanhBound : Double := ⟨0x404601E678FC457B⟩

/-- The hyperbolic tangent of a number of at least five eighths. -/
def tanhLarge (x : Double) : Double :=
  let square := exp (x.scale 1)
  .sub (.ofInt 1) ((FloatWord.ofInt 2).div (square.add (.ofInt 1)))

/-- The hyperbolic tangent. -/
def tanh (x : Double) : Double :=
  let size : Double := .ofMagnitude false x.magnitude
  if tanhBound.lt size then .ofInt (if x.negative then -1 else 1)
  else if !x.isNaN && !size.lt tanhSmall then
    let y := tanhLarge size
    if x.negative then y.neg else y
  else if x.isZero then x
  else
    let square := x.mul x
    x.add (((x.mul square).mul (square.horner tanhNumerator)).div (square.horner tanhDenominator))

end LazyTensor.Double
