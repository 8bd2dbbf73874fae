import LazyTensor.Number.FloatWord

/-!
# Polynomials and whole parts

What the elementary functions are computed with: values of polynomials by Horner's rule, the nearest
integer, and products with powers of two.
-/

namespace LazyTensor

namespace Datum

/-- The integer nearest to a finite datum, on a tie the even one; zero for the others. -/
def nearestInt : Datum → Int
  | .finite s m e =>
    let magnitude := nearestEven (m <<< e.toNat) (pow2 (-e).toNat)
    if s then -(magnitude : Int) else magnitude
  | _ => 0

/-- The whole part of a finite datum that is not negative; zero for the others. -/
def wholePart : Datum → Nat
  | .finite s m e => (truncFinite s m e).toNat
  | _ => 0

/-- The datum times `2 ^ k`. -/
def scale (k : Int) : Datum → Datum
  | .finite s m e => .finite s m (e + k)
  | x => x

end Datum

namespace FloatWord

variable {f : FloatFormat}

/-- The word times `2 ^ k`, rounded once. -/
def scale (x : FloatWord f) (k : Int) : FloatWord f := ofDatum (x.datum.scale k)

/-- The value at `x` of the polynomial with the given coefficients, that of the highest power first.
Every product and every sum is rounded. -/
def horner (x : FloatWord f) : List (FloatWord f) → FloatWord f
  | [] => zero
  | c :: cs => cs.foldl (fun sum next => (sum.mul x).add next) c

/-- The value at `x` of the polynomial with the given coefficients, that of the highest power first.
Each step is a fused multiply-add and rounded once. -/
def fusedHorner (x : FloatWord f) : List (FloatWord f) → FloatWord f
  | [] => zero
  | c :: cs => cs.foldl (fun sum next => sum.mulAdd x next) c

end FloatWord

end LazyTensor
