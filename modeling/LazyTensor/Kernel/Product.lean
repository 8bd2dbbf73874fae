import LazyTensor.Element.Arithmetic
import LazyTensor.Kernel.Range
import LazyTensor.Part
import LazyTensor.Shape

/-!
# Kernels of matrix products

A batch of products of `m × k` and `k × n` matrices. Integers are summed element by element; floating
point rows are accumulated one term at a time in the order of the inner dimension. Operands may be the
output itself, and are then read as it is at that time. Indices are 64-bit words; a product ends at the
first row that is not within the data, and keeps what it wrote before.
-/

namespace LazyTensor

/-- The dimensions of a batch of matrix products. -/
structure ProductDims where
  batch : Int
  m : Int
  k : Int
  n : Int

/-- Operands that cannot be multiplied. -/
inductive ProductDims.Error where
  | ranks
  | batches
  | contracting

/-- The dimensions of the product of two shapes. -/
def ProductDims.ofShapes (lhs rhs : Shape) : Except ProductDims.Error ProductDims :=
  match lhs.dims, rhs.dims with
  | [m, k], [k', n] => if k' = k then .ok ⟨1, m, k, n⟩ else .error .contracting
  | [b, m, k], [b', k', n] =>
    if b' ≠ b then .error .batches
    else if k' = k then .ok ⟨b, m, k, n⟩ else .error .contracting
  | _, _ => .error .ranks

namespace Kernel

/-- Whether block number `i` of some length is a part of `size` elements. -/
def isBlock (i length : Int) (size : Nat) : Bool :=
  isPart (wrap64 (i * length)) (wrap64 ((i + 1) * length)) size

/-- Where block number `i` of some length starts. -/
def blockStart (i length : Int) : Nat := (wrap64 (i * length)).toNat

/-- One element of an integer product. -/
def integerDot {f : IntFormat} (lhs rhs : Source (IntWord f)) (out : Array (IntWord f))
    (lhsBase rhsBase k n : Nat) : IntWord f :=
  (List.range k).foldl (fun sum p =>
    sum.add ((lhs.getD out (lhsBase + p) .zero).mul (rhs.getD out (rhsBase + p * n) .zero))) .zero

/-- Row number `row` of an integer product: `sum`, or `alpha * old + beta * sum` with coefficients. -/
def integerRow {f : IntFormat} (d : ProductDims) (lhs rhs : Source (IntWord f))
    (coefficients : Option (IntWord f × IntWord f)) (out : Array (IntWord f)) (row : Nat) :
    Option (Array (IntWord f)) :=
  let batch := (row : Int) / d.m
  if !isBlock row d.k (lhs.size out) || !isBlock batch (d.k * d.n) (rhs.size out)
      || !isBlock row d.n out.size then none
  else
    let rhsBase := blockStart batch (d.k * d.n)
    let outBase := blockStart row d.n
    some ((List.range d.n.toNat).foldl (fun out col =>
      let sum := integerDot lhs rhs out (blockStart row d.k) (rhsBase + col) d.k.toNat d.n.toNat
      let value := match coefficients with
        | some (alpha, beta) => (alpha.mul (out.getD (outBase + col) .zero)).add (beta.mul sum)
        | none => sum
      out.setIfInBounds (outBase + col) value) out)

/-- The rows from number `row` on, up to one that is out of bounds. -/
def integerRows {f : IntFormat} (d : ProductDims) (lhs rhs : Source (IntWord f))
    (coefficients : Option (IntWord f × IntWord f)) :
    (count row : Nat) → Array (IntWord f) → Outcome (IntWord f)
  | 0, _, out => (out, none)
  | count + 1, row, out =>
    match integerRow d lhs rhs coefficients out row with
    | some out => integerRows d lhs rhs coefficients count (row + 1) out
    | none => (out, some .outOfBounds)

/-- The product of integers, over ranges of rows. -/
def integerProduct {f : IntFormat} (ranges : List Range) (d : ProductDims)
    (lhs rhs : Source (IntWord f)) (coefficients : Option (IntWord f × IntWord f))
    (out : Array (IntWord f)) : Outcome (IntWord f) :=
  ranges.foldl (fun (out, fault) r =>
    let (out, fault') := integerRows d lhs rhs coefficients (r.stop - r.start) r.start out
    (out, fault.or fault')) (out, none)

/-- Why a product of floating point matrices stops. -/
inductive FloatFault where
  | outOfBounds
  /-- The dimensions are none of matrices, with the reason. -/
  | dimensions (reason : String)

/-- The reason why dimensions are none of matrices. -/
def badDims (d : ProductDims) : Option String :=
  if d.m < 0 then some "blas: m < 0"
  else if d.n < 0 then some "blas: n < 0"
  else if d.k < 0 then some "blas: k < 0"
  else if d.k = 0 then some "blas: bad leading dimension of A"
  else if d.n = 0 then some "blas: bad leading dimension of B"
  else none

/-- Adds `t * rhs[l, j]` to every element `j` of a row. -/
def addScaledRow {f : FloatFormat} (rhs : Source (FloatWord f)) (t : FloatWord f)
    (rhsBase outBase n : Nat) (out : Array (FloatWord f)) : Array (FloatWord f) :=
  (List.range n).foldl (fun out j =>
    out.setIfInBounds (outBase + j)
      ((out.getD (outBase + j) .zero).add (t.mul (rhs.getD out (rhsBase + j) .zero)))) out

/-- Where the matrices of a batch start. -/
structure Bases where
  lhs : Nat
  rhs : Nat
  out : Nat

/-- Multiplies the rows from number `i` on by `alpha`, up to one that is out of bounds, and says whether
there is one. Zero clears a row. -/
def scaleRows {f : FloatFormat} (n : Nat) (alpha : FloatWord f) (base : Nat) :
    (count i : Nat) → Array (FloatWord f) → Array (FloatWord f) × Bool
  | 0, _, out => (out, false)
  | count + 1, i, out =>
    if out.size < base + (i + 1) * n then (out, true)
    else
      scaleRows n alpha base count (i + 1) <|
        (List.range n).foldl (fun out j =>
          let index := base + i * n + j
          out.setIfInBounds index
            (if alpha.isZero then .zero else alpha.mul (out.getD index .zero))) out

/-- Adds the rows of `beta * lhs * rhs` from number `i` on, up to one that is out of bounds, and says
whether there is one. Terms that are zero are left out. -/
def addRows {f : FloatFormat} (k n : Nat) (lhs rhs : Source (FloatWord f)) (beta : FloatWord f)
    (base : Bases) : (count i : Nat) → Array (FloatWord f) → Array (FloatWord f) × Bool
  | 0, _, out => (out, false)
  | count + 1, i, out =>
    if out.size < base.out + (i + 1) * n || lhs.size out < base.lhs + (i + 1) * k then (out, true)
    else
      addRows k n lhs rhs beta base count (i + 1) <|
        (List.range k).foldl (fun out l =>
          let t := beta.mul (lhs.getD out (base.lhs + i * k + l) .zero)
          if t.isZero then out
          else addScaledRow rhs t (base.rhs + l * n) (base.out + i * n) n out) out

/-- `out := alpha * out + beta * lhs * rhs` for the matrices that start at the given indices, up to a row
that is out of bounds; says whether there is one. Nothing is done if `beta` is zero and `alpha` one. -/
def floatMatrix {f : FloatFormat} (m k n : Nat) (lhs rhs : Source (FloatWord f))
    (alpha beta : FloatWord f) (base : Bases) (out : Array (FloatWord f)) :
    Array (FloatWord f) × Bool :=
  let one : FloatWord f := .ofInt 1
  if beta.isZero && alpha == one then (out, false)
  else
    match if alpha == one then (out, false) else scaleRows n alpha base.out m 0 out with
    | (scaled, true) => (scaled, true)
    | (scaled, false) => addRows k n lhs rhs beta base m 0 scaled

/-- The products of the batches from number `b` on, up to one that cannot be computed. -/
def floatBatches {f : FloatFormat} (d : ProductDims) (lhs rhs : Source (FloatWord f))
    (alpha beta : FloatWord f) :
    (count b : Nat) → Array (FloatWord f) → Array (FloatWord f) × Option FloatFault
  | 0, _, out => (out, none)
  | count + 1, b, out =>
    let mk := d.m * d.k
    let kn := d.k * d.n
    let mn := d.m * d.n
    if !isBlock b mk (lhs.size out) || !isBlock b kn (rhs.size out) || !isBlock b mn out.size then
      (out, some .outOfBounds)
    else match badDims d with
      | some reason => (out, some (.dimensions reason))
      | none =>
        let base : Bases := ⟨blockStart b mk, blockStart b kn, blockStart b mn⟩
        match floatMatrix d.m.toNat d.k.toNat d.n.toNat lhs rhs alpha beta base out with
        | (out, true) => (out, some .outOfBounds)
        | (out, false) => floatBatches d lhs rhs alpha beta count (b + 1) out

/-- The product of floating point matrices, over ranges of batches. -/
def floatProduct {f : FloatFormat} (ranges : List Range) (d : ProductDims)
    (lhs rhs : Source (FloatWord f)) (alpha beta : FloatWord f) (out : Array (FloatWord f)) :
    Array (FloatWord f) × Option FloatFault :=
  ranges.foldl (fun (out, fault) r =>
    let (out, fault') := floatBatches d lhs rhs alpha beta (r.stop - r.start) r.start out
    (out, fault.or fault')) (out, none)

end Kernel

end LazyTensor
