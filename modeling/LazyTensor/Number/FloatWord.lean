import LazyTensor.Number.Format
import LazyTensor.Number.Datum

/-!
# Floating point words

Reading a word gives its exact `Datum`; writing a datum rounds once, to the nearest word and on a tie
to the even one. Sum, product, quotient, square root and fused multiply-add are the exact results
rounded once.
-/

namespace LazyTensor

/-- The quotient `n / d` rounded to the nearest natural number, on a tie to the even one. -/
def nearestEven (n d : Nat) : Nat :=
  let q := n / d
  let r := n % d
  if 2 * r < d then q else if d < 2 * r then q + 1 else q + q % 2

/-- The greatest `k` with `2 ^ k ≤ n / d`, for positive `n` and `d`. -/
def ratioLog2 (n d : Nat) : Int :=
  let k : Int := (n.log2 : Int) - d.log2
  if d <<< k.toNat ≤ n <<< (-k).toNat then k else k - 1

namespace FloatFormat

/-- The bits of the word nearest to `n / d * 2 ^ e`, for positive `d`: the place of the last bit is
chosen so that the significand has all its bits, or is that of the subnormal numbers. -/
def roundRatio (f : FloatFormat) (n d : Nat) (e : Int) : Nat :=
  if n = 0 then 0 else
    let place := max (e + ratioLog2 n d - f.fractionBits) f.leastExponent
    let significand := nearestEven (n <<< (e - place).toNat) (d <<< (place - e).toNat)
    min ((place - f.leastExponent).toNat * f.exponentWeight + significand) f.infinityBits

end FloatFormat

namespace FloatWord

variable {f : FloatFormat}

/-- The word with the given sign and the given bits below the sign. -/
def ofMagnitude (negative : Bool) (magnitude : Nat) : FloatWord f :=
  ⟨BitVec.ofNat f.width (if negative then f.signWeight + magnitude else magnitude)⟩

/-- The NaN that operations return. -/
def nan : FloatWord f := ofMagnitude false f.nanBits

def infinity (negative : Bool) : FloatWord f := ofMagnitude negative f.infinityBits

def zero : FloatWord f := ⟨0⟩

/-- The sign bit. -/
def negative (x : FloatWord f) : Bool := f.signWeight ≤ x.bits.toNat

/-- The bits below the sign. -/
def magnitude (x : FloatWord f) : Nat := x.bits.toNat % f.signWeight

def isNaN (x : FloatWord f) : Bool := f.infinityBits < x.magnitude

def isInfinite (x : FloatWord f) : Bool := x.magnitude == f.infinityBits

def isZero (x : FloatWord f) : Bool := x.magnitude == 0

/-- What the word stands for. -/
def datum (x : FloatWord f) : Datum :=
  let field := x.magnitude / f.exponentWeight
  let fraction := x.magnitude % f.exponentWeight
  if field = f.exponentLimit then
    if fraction = 0 then .infinite x.negative else .nan
  else if field = 0 then .finite x.negative fraction f.leastExponent
  else .finite x.negative (f.exponentWeight + fraction) (f.leastExponent + (field - 1))

/-- The word nearest to `n / d * 2 ^ e` with the given sign. -/
def ofRatio (negative : Bool) (n d : Nat) (e : Int) : FloatWord f :=
  ofMagnitude negative (f.roundRatio n d e)

/-- The word nearest to a datum. -/
def ofDatum : Datum → FloatWord f
  | .nan => nan
  | .infinite s => infinity s
  | .finite s m e => ofRatio s m 1 e

/-- The word nearest to an integer. -/
def ofInt (n : Int) : FloatWord f := ofRatio (decide (n < 0)) n.natAbs 1 0

/-- The word of another format nearest to this one. A NaN becomes the quiet NaN with the same sign and
the leading bits of its fraction. -/
def convert {g : FloatFormat} (x : FloatWord f) : FloatWord g :=
  if x.isNaN then
    let fraction := x.magnitude % f.exponentWeight
    ofMagnitude x.negative (g.nanBits ||| ((fraction <<< g.fractionBits) >>> f.fractionBits))
  else ofDatum x.datum

/-- The word with the other sign. -/
def neg (x : FloatWord f) : FloatWord f := ofMagnitude (!x.negative) x.magnitude

def add (x y : FloatWord f) : FloatWord f := ofDatum (x.datum.add y.datum)

def sub (x y : FloatWord f) : FloatWord f := ofDatum (x.datum.add y.datum.neg)

def mul (x y : FloatWord f) : FloatWord f := ofDatum (x.datum.mul y.datum)

/-- `x * y + z`, rounded once. -/
def mulAdd (x y z : FloatWord f) : FloatWord f := ofDatum ((x.datum.mul y.datum).add z.datum)

/-- The quotient. A number other than zero divided by zero is infinite. -/
def div (x y : FloatWord f) : FloatWord f :=
  let s := x.negative != y.negative
  match x.datum, y.datum with
  | .nan, _ => nan
  | _, .nan => nan
  | .infinite _, .infinite _ => nan
  | .infinite _, .finite .. => infinity s
  | .finite .., .infinite _ => ofMagnitude s 0
  | .finite _ m d, .finite _ n e =>
    if n = 0 then if m = 0 then nan else infinity s else ofRatio s m n (d - e)

/-- The sign bit counts, and so `-0` is below `0`: an order of all words that are numbers. -/
def orderKey (x : FloatWord f) : Int :=
  if x.negative then -((x.magnitude : Int) + 1) else x.magnitude

/-- Numerical order. Nothing is below or above a NaN, and the zeros are equal. -/
def lt (x y : FloatWord f) : Bool :=
  !x.isNaN && !y.isNaN && !(x.isZero && y.isZero) && x.orderKey < y.orderKey

def le (x y : FloatWord f) : Bool := !x.isNaN && !y.isNaN && !y.lt x

/-- The greater of two words, a NaN if there is one; `0` is greater than `-0`. -/
def max (x y : FloatWord f) : FloatWord f :=
  if x.isNaN then x else if y.isNaN then y else if x.orderKey < y.orderKey then y else x

/-- The smaller of two words, a NaN if there is one; `-0` is smaller than `0`. -/
def min (x y : FloatWord f) : FloatWord f :=
  if x.isNaN then x else if y.isNaN then y else if y.orderKey < x.orderKey then y else x

end FloatWord

/-- Adds the bits `2 ^ (k - 1)`, ..., `1` to a root as long as its square is at most `n`. -/
def floorRootFrom (n : Nat) : (k root : Nat) → Nat
  | 0, root => root
  | k + 1, root =>
    let next := root + pow2 k
    floorRootFrom n k (if next * next ≤ n then next else root)

/-- The greatest natural number whose square is at most `n`. -/
def floorRoot (n : Nat) : Nat := floorRootFrom n (n.log2 / 2 + 1) 0

namespace FloatWord

variable {f : FloatFormat}

/-- The square root: the integer root of the scaled significand has more bits than the format, and
one bit more says whether it is exact. -/
def sqrt (x : FloatWord f) : FloatWord f :=
  match x.datum with
  | .nan => nan
  | .infinite s => if s then nan else infinity false
  | .finite s m e =>
    if m = 0 then x
    else if s then nan
    else
      let shift := 2 * (f.fractionBits + 3) + (if e % 2 = 0 then 0 else 1)
      let scaled := m <<< shift
      let root := floorRoot scaled
      ofRatio false (2 * root + if root * root = scaled then 0 else 1) 1 ((e - shift) / 2 - 1)

end FloatWord

end LazyTensor
