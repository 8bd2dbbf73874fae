import LazyTensor.Shader.Source

/-!
# Launches

A kernel is launched with a grid of workgroups that covers the output, and with a block of
parameters of 32 bits each.
-/

namespace LazyTensor.Shader

/-- The workgroups along one dimension of a grid are limited. -/
def maxWorkgroups : Int := 65535

/-- A grid of workgroups, and the invocations in one of its rows. -/
structure Grid where
  x : UInt32
  y : UInt32
  stride : UInt32
deriving DecidableEq

/-- An integer in 32 bits. -/
def word (n : Int) : UInt32 := UInt32.ofNat (n % pow2 32).toNat

/-- The grid for `n` invocations: one row, or full rows if there are too many workgroups. There is none
for workgroups of no invocations. -/
def grid? (n workgroupSize : Int) : Option Grid :=
  if workgroupSize = 0 then none
  else
    let workgroups := max (wrap64 ((wrap64 (n + workgroupSize - 1)).tdiv workgroupSize)) 1
    if workgroups ≤ maxWorkgroups then
      some ⟨word workgroups, 1, word (workgroups * workgroupSize)⟩
    else
      some ⟨word maxWorkgroups, word ((wrap64 (workgroups + maxWorkgroups - 1)).tdiv maxWorkgroups),
        word maxWorkgroups * word workgroupSize⟩

/-! ## Scalars -/

/-- The bits of a number of single precision. -/
def singleBits (v : Double) : UInt32 := UInt32.ofNat (v.convert : Single).bits.toNat

/-- A number clamped to a format in double precision, and then truncated toward zero. NaN gives zero. -/
def integerBits (f : IntFormat) (v : Double) : UInt32 :=
  if v.isNaN then 0
  else word (((v.max (.ofInt f.least)).min (.ofInt f.greatest)).datum.truncOrLeast 64)

/-- A scalar parameter for a data type. -/
def scalarBits (dtype : DType) (v : Double) : UInt32 :=
  match ScalarType.ofParameter dtype with
  | .i32 => integerBits .int32 v
  | .u32 => integerBits .uint32 v
  | _ => singleBits v

/-- The step of a range. Unsigned steps wrap around, so that negative ones count down. -/
def stepBits (dtype : DType) (step : Double) : UInt32 :=
  if dtype = .uint32 then word (step.datum.truncOrLeast 64) else scalarBits dtype step

/-! ## Parameters -/

/-- The four bytes of a word, the least first. -/
def littleEndian (w : UInt32) : List UInt8 :=
  [w.toUInt8, (w >>> 8).toUInt8, (w >>> 16).toUInt8, (w >>> 24).toUInt8]

/-- A block of parameters as bytes. -/
def encode (words : List UInt32) : List UInt8 := words.flatMap littleEndian

/-- Why an operation cannot be launched. -/
inductive LaunchError where
  | inputCount (op : Operation) (count : Nat)
  | incompatible (op : Operation) (lhs rhs : Shape)
  | biasShape (op : Operation) (bias output : Shape)
  | invalidInputs (op : Operation) (output : Shape) (inputs : List Shape)
  | inputShape (op : Operation) (index : Nat) (shape expected : Shape)
  | noGrid

instance : Failure LaunchError where
  kind
    | .noGrid => .fault
    | _ => .execution
  message e :=
    let failed (reason : String) := context reason FailureKind.execution.cause
    match e with
    | .inputCount op count => failed s!"{op.text}: got {count} inputs"
    | .incompatible op lhs rhs =>
      failed s!"{op.text} of {lhs.text} and {rhs.text}: incompatible shapes"
    | .biasShape op bias output =>
      failed s!"{op.text}: bias shape {bias.text} doesn't match output {output.text}"
    | .invalidInputs op output inputs =>
      failed s!"{op.text} -> {output.text}: invalid inputs {Text.listing (inputs.map Shape.text)}"
    | .inputShape op index shape expected =>
      failed s!"{op.text} input #{index} has shape {shape.text}, expected {expected.text}"
    | .noGrid => FailureKind.fault.cause

/-- The sizes of a product of matrices. -/
structure MatMulSizes where
  batch : Int
  m : Int
  k : Int
  n : Int

/-- The sizes of the product of two shapes, of which both have two axes or both have three. -/
def MatMulSizes.ofShapes? (lhs rhs : Shape) : Option MatMulSizes :=
  match lhs.dims, rhs.dims with
  | [m, k], [k', n] => if k = k' then some ⟨1, m, k, n⟩ else none
  | [batch, m, k], [_, k', n] => if k = k' then some ⟨batch, m, k, n⟩ else none
  | _, _ => none

/-- The parameters of a product. -/
def MatMulSizes.params (d : MatMulSizes) (stride : UInt32) (alpha beta : Double) : List UInt32 :=
  [word (d.batch * d.m * d.n), stride, word d.batch, word d.m, word d.k, word d.n,
    singleBits alpha, singleBits beta]

/-- The parameters of a product of some inputs. -/
def matMulWords (op : Operation) (alpha beta : Double) (hasBias : Bool) (stride : UInt32)
    (inputs : List Shape) (output : Shape) : Except LaunchError (List UInt32) :=
  let product (lhs rhs : Shape) (bias : Option Shape) : Except LaunchError (List UInt32) :=
    match MatMulSizes.ofShapes? lhs rhs with
    | none => .error (.incompatible op lhs rhs)
    | some d =>
      match bias with
      | some bias => if bias = output then .ok (d.params stride alpha beta)
        else .error (.biasShape op bias output)
      | none => .ok (d.params stride alpha beta)
  match hasBias, inputs with
  | false, [lhs, rhs] => product lhs rhs none
  | true, [lhs, rhs, bias] => product lhs rhs (some bias)
  | _, _ => .error (.inputCount op inputs.length)

/-- The first input whose shape is not that of the output. -/
def otherShape? (inputs : List Shape) (output : Shape) : Option (Nat × Shape) :=
  (inputs.findIdx? (· != output)).bind fun i => inputs[i]?.map fun s => (i, s)

/-- The parameters of an operation, of which the number of elements and the invocations of a row of the
grid come first. -/
def launchWords (op : Operation) (inputs : List Shape) (output : Shape) (workgroupSize : Int) :
    Except LaunchError (List UInt32) :=
  match grid? output.size workgroupSize with
  | none => .error .noGrid
  | some grid =>
    let scalars (a b : UInt32) : List UInt32 := [word output.size, grid.stride, a, b]
    match op with
    | .fill value => .ok (scalars (scalarBits output.dtype value) 0)
    | .arange start step =>
      if isIntegral start step output.dtype then
        .ok (scalars (scalarBits output.dtype start) (stepBits output.dtype step))
      else .ok (scalars (singleBits start) (singleBits step))
    | .matMul alpha beta hasBias => matMulWords op alpha beta hasBias grid.stride inputs output
    | .transpose _ | .cast _ =>
      match inputs with
      | [operand] => if operand.size = output.size then .ok (scalars 0 0)
        else .error (.invalidInputs op output inputs)
      | _ => .error (.invalidInputs op output inputs)
    | _ =>
      match otherShape? inputs output with
      | some (i, shape) => .error (.inputShape op i shape output)
      | none => .ok (scalars 0 0)

/-- The block of parameters of an operation. -/
def launchParams (op : Operation) (inputs : List Shape) (output : Shape) (workgroupSize : Int) :
    Except LaunchError (List UInt8) :=
  (launchWords op inputs output workgroupSize).map encode

/-- The bytes of a device buffer for a shape: a positive multiple of four. -/
def alignedSize (shape : Shape) : Except DType.Error UInt64 := do
  let size ← shape.memory
  return max ((size + 3) / 4 * 4) 4

end LazyTensor.Shader
