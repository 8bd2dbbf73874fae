import LazyTensor.Host.Execute
import LazyTensor.Proofs.Graph.Typing
import LazyTensor.Proofs.Kernel.Product
import LazyTensor.Proofs.Kernel.Steps
import LazyTensor.Proofs.Kernel.Transpose

/-!
# Values of operations

`Operation.value?` is what an operation computes from the values of its operands, without memory, buffers
and workers: a function of elements. One kind of operation has no such value. A product of integers without
bias has as many rows as its 64-bit count says, and if that count is negative, an output with elements is
left as it was allocated (`Operation.skipsOutput`).
-/

namespace LazyTensor

@[simp] theorem Flat.as?_ofElements (t : ElementType) (data : Array t.Elem) :
    (ofElements t data).as? t = some data := by
  simp [as?, ofElements]

/-- Elements with their shape. -/
structure Value where
  shape : Shape
  flat : Flat

namespace Operation

open Kernel

/-- The elements of a program at all indices. -/
def programElements? (t : ElementType) (p : Program) (inputs : List Value) (n : Nat) : Option (Array t.Elem) :=
  (inputs.mapM fun (v : Value) => v.flat.as? t).bind fun data => programTable? t p data.toArray n

/-- The elements of a product of floating point matrices, given those to which it is added. -/
def floatElements? {f : FloatFormat} (alpha beta : FloatWord f) (d : ProductDims) (n : Nat)
    (lhs rhs : Array (FloatWord f)) (bias : Option (Array (FloatWord f))) : Option (Array (FloatWord f)) :=
  floatProduct? d lhs rhs alpha beta (bias.getD (Array.replicate n .zero))

/-- The elements of a product that is computed in single precision. -/
def halfElements? {α : Type} (widen : α → Single) (narrow : Single → α) (alpha beta : Single) (d : ProductDims)
    (n : Nat) (lhs rhs : Array α) (bias : Option (Array α)) : Option (Array α) :=
  (floatElements? alpha beta d n (lhs.map widen) (rhs.map widen) (bias.map (·.map widen))).map (·.map narrow)

/-- The elements of a product of integers. The coefficients are only used with a bias. -/
def integerElements? {f : IntFormat} (alpha beta : Double) (d : ProductDims) (n : Nat)
    (lhs rhs : Array (IntWord f)) (bias : Option (Array (IntWord f))) : Option (Array (IntWord f)) :=
  integerProduct? d lhs rhs
    (bias.map fun _ => (Scalar.toIntWord (.double alpha), Scalar.toIntWord (.double beta)))
    (bias.getD (Array.replicate n .zero))

/-- The elements of `alpha * bias + beta * lhs * rhs`, without a bias those of `beta * lhs * rhs`. -/
def productElements? (alpha beta : Double) (d : ProductDims) (n : Nat) :
    (t : ElementType) → (lhs rhs : Array t.Elem) → (bias : Option (Array t.Elem)) → Option (Array t.Elem)
  | .float32, lhs, rhs, bias => floatElements? (alpha.convert : Single) beta.convert d n lhs rhs bias
  | .float64, lhs, rhs, bias => floatElements? alpha beta d n lhs rhs bias
  | .float16, lhs, rhs, bias =>
    halfElements? (ElementType.widen .float16) Half.ofSingle alpha.convert beta.convert d n lhs rhs bias
  | .bfloat16, lhs, rhs, bias =>
    halfElements? (ElementType.widen .bfloat16) BFloat.ofSingle alpha.convert beta.convert d n lhs rhs bias
  | .uint8, lhs, rhs, bias => integerElements? alpha beta d n lhs rhs bias
  | .uint32, lhs, rhs, bias => integerElements? alpha beta d n lhs rhs bias
  | .int32, lhs, rhs, bias => integerElements? alpha beta d n lhs rhs bias
  | .int64, lhs, rhs, bias => integerElements? alpha beta d n lhs rhs bias

/-- The elements of a product of values. -/
def matMulElements? (alpha beta : Double) (t : ElementType) (lhs rhs : Value) (bias : Option Value) (n : Nat) :
    Option (Array t.Elem) := do
  let d ← (ProductDims.ofShapes lhs.shape rhs.shape).toOption
  let l ← lhs.flat.as? t
  let r ← rhs.flat.as? t
  match bias with
  | none => productElements? .zero (.ofInt 1) d n t l r none
  | some bias =>
    let old ← bias.flat.as? t
    productElements? alpha beta d n t l r (some old)

def castElements? (t : ElementType) (x : Value) (n : Nat) : Option (Array t.Elem) :=
  match x.flat with
  | ⟨.element s, data⟩ => some (Array.ofFn fun i : Fin n => castElement s t (data.getD i s.zero))
  | ⟨.inert _, _⟩ => none

/-- The elements of a value with permuted axes. -/
def transposeElements? (permutation : List Int) (t : ElementType) (x : Value) (output : Shape) (n : Nat) :
    Option (Array t.Elem) := do
  let strides ← HostM.permutedStrides permutation x.shape
  let src ← x.flat.as? t
  transposed? src output.dims strides n

/-- The `n` elements of an operation. -/
def elements? (op : Operation) (t : ElementType) (inputs : List Value) (output : Shape) (n : Nat) :
    Option (Array t.Elem) :=
  match op, inputs with
  | .fill x, _ => some (Array.ofFn fun _ : Fin n => ofDouble t x)
  | .arange start step, _ => some (Array.ofFn fun i : Fin n => ofDouble t (arangeValue start step i))
  | .elementwise e, inputs => programElements? t (.single (.elementwise e) output.dtype) inputs n
  | .fused (some p), inputs => programElements? t p inputs n
  | .matMul alpha beta false, [l, r] => matMulElements? alpha beta t l r none n
  | .matMul alpha beta true, [l, r, bias] => matMulElements? alpha beta t l r (some bias) n
  | .transpose permutation, [x] => transposeElements? permutation t x output n
  | .cast _, [x] => castElements? t x n
  | _, _ => none

/-- What an operation computes from the values of its operands, if there is a layout for it. -/
def value? (op : Operation) (inputs : List Value) (output : Shape) : Option Flat :=
  match Layout.make output.dtype output.size, output.dtype.element? with
  | .ok l, some t => (op.elements? t inputs output l.size).map (.ofElements t)
  | _, _ => none

/-- Whether the operation leaves an output that has elements as it is: it is a product of integers without
bias, with a number of rows that is negative in 64 bits. -/
def skipsOutput (op : Operation) (inputs : List Shape) (output : Shape) : Bool :=
  match op, inputs with
  | .matMul _ _ false, [l, r] => output.dtype.isInteger && 0 < output.size &&
    (ProductDims.ofShapes l r).toOption.any fun d => wrap64 (d.batch * d.m) < 0
  | _, _ => false

theorem elements?_of_program? {op : Operation} {output : Shape} {t : ElementType} {values : List Value} {p : Program}
    (hp : op.program? output.dtype = some p) (n : Nat) :
    op.elements? t values output n = programElements? t p values n := by
  cases op with
  | elementwise e =>
    obtain rfl := Option.some.inj hp
    rfl
  | fused q =>
    obtain rfl : q = some p := hp
    rfl
  | _ => cases hp

end Operation

end LazyTensor
