import LazyTensor.Number.Power

/-!
# Exact data of floating point words

A floating point word is read as a `Datum`: not a number, an infinity, or an exact dyadic number with
a sign (so that both zeros are kept apart). Sums and products of data are exact; only
`FloatWord.ofDatum` rounds.
-/

namespace LazyTensor

/-- What a floating point word stands for. `finite s m e` is `m * 2 ^ e`, negated if `s`. -/
inductive Datum where
  | nan
  | infinite (negative : Bool)
  | finite (negative : Bool) (mantissa : Nat) (exponent : Int)
deriving DecidableEq

namespace Datum

/-- The integer `m * 2 ^ k` with the given sign. -/
def signedUnits (negative : Bool) (mantissa shift : Nat) : Int :=
  if negative then -((mantissa <<< shift : Nat) : Int) else ((mantissa <<< shift : Nat) : Int)

/-- The exact sum. Opposite infinities have none, and a zero sum is positive unless both are negative. -/
def add : Datum → Datum → Datum
  | .nan, _ => .nan
  | _, .nan => .nan
  | .infinite s, .infinite t => if s = t then .infinite s else .nan
  | .infinite s, .finite .. => .infinite s
  | .finite .., .infinite t => .infinite t
  | .finite s m d, .finite t n e =>
    let low := min d e
    let sum := signedUnits s m (d - low).toNat + signedUnits t n (e - low).toNat
    .finite (if sum = 0 then s && t else decide (sum < 0)) sum.natAbs low

/-- The exact product. Zero times infinity has none. -/
def mul : Datum → Datum → Datum
  | .nan, _ => .nan
  | _, .nan => .nan
  | .infinite s, .infinite t => .infinite (s != t)
  | .infinite s, .finite t n _ => if n = 0 then .nan else .infinite (s != t)
  | .finite s m _, .infinite t => if m = 0 then .nan else .infinite (s != t)
  | .finite s m d, .finite t n e => .finite (s != t) (m * n) (d + e)

/-- The datum with the other sign. -/
def neg : Datum → Datum
  | .nan => .nan
  | .infinite s => .infinite !s
  | .finite s m e => .finite (!s) m e

/-- The integer next to `m * 2 ^ e` toward zero, with the given sign. -/
def truncFinite (negative : Bool) (mantissa : Nat) (exponent : Int) : Int :=
  let magnitude := if 0 ≤ exponent then mantissa <<< exponent.toNat else mantissa >>> (-exponent).toNat
  if negative then -(magnitude : Int) else magnitude

/-- The datum truncated toward zero and clamped to `[least, greatest]`. NaN gives zero. -/
def saturate (least greatest : Int) : Datum → Int
  | .nan => 0
  | .infinite s => if s then least else greatest
  | .finite s m e => max least (min greatest (truncFinite s m e))

/-- The datum truncated toward zero, if it is a number in the range of `width` bit two's complement;
otherwise the least number of that range. -/
def truncOrLeast (width : Nat) (x : Datum) : Int :=
  let least : Int := -(pow2 (width - 1))
  match x with
  | .finite s m e =>
    let n := truncFinite s m e
    if least ≤ n ∧ n < pow2 (width - 1) then n else least
  | _ => least

/-- Whether the datum is a whole number or infinite. -/
def isWhole : Datum → Bool
  | .nan => false
  | .infinite _ => true
  | .finite _ m e => 0 ≤ e || m % pow2 (-e).toNat == 0

end Datum

end LazyTensor
