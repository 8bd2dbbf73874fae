import LazyTensor.Operation.Basic
import LazyTensor.Shader.Render
import LazyTensor.Shape

/-!
# Kernels of operations

Each operation on elements of 32 bits has a kernel. The buffers of a kernel are its inputs in order,
then its output, then its parameters. A signature tells kernels apart, but for the data type of a
transposed operand.
-/

namespace LazyTensor.Shader

/-- The name of shader backends. -/
def backendName : String := "webgpu"

/-- Why a step of a program has no expression. -/
inductive StepError where
  | notFloat (kind : OpKind) (dtype : DType)
  | notSigned (kind : OpKind) (dtype : DType)
  | notElementwise (kind : OpKind)
  | missingArgument

def StepError.reason : StepError → String
  | .notFloat kind dtype => s!"op {kind.name} requires a float dtype, got {dtype.name}"
  | .notSigned kind dtype => s!"op {kind.name} requires a signed dtype, got {dtype.name}"
  | .notElementwise kind => s!"op {kind.name} is not elementwise"
  | .missingArgument => "runtime error"

instance : Failure StepError where
  kind
    | .missingArgument => .fault
    | _ => .compilation
  message
    | .missingArgument => FailureKind.fault.cause
    | e => context e.reason FailureKind.compilation.cause

/-- Why an operation has no kernel. -/
inductive SourceError where
  | noScalarType (dtype : DType)
  | noProgram
  | program (cause : Program.Error)
  | step (signature : String) (index : Nat) (cause : StepError)
  | transposeInputs (count : Nat)
  | badPermutation (permutation : List Int) (operand : Shape)
  | unsupported (op : Operation)

def SourceError.reason : SourceError → String
  | .noScalarType dtype => s!"dtype {dtype.name} has no WGSL equivalent"
  | .noProgram => "fused op without a program"
  | .program cause => cause.reason
  | .step signature index cause =>
    context s!"fused program {Text.quote signature} step #{index}" cause.reason
  | .transposeInputs count => s!"Transpose takes 1 input, got {count}"
  | .badPermutation permutation operand =>
    s!"Transpose{Text.integers permutation} of {operand.text}: invalid permutation"
  | .unsupported op => s!"op {op.text} not supported by backend {backendName}"

instance : Failure SourceError where
  kind _ := .compilation
  message e := context e.reason FailureKind.compilation.cause

/-- The scalar type of a data type, which must have one. -/
def scalarType (dtype : DType) : Except SourceError ScalarType :=
  match ScalarType.ofDType? dtype with
  | some t => .ok t
  | none => .error (.noScalarType dtype)

/-! ## Steps -/

/-- A unary operation applied to an expression, in a scalar type. -/
def unaryExpr (t : ScalarType) (a : Expr) : UnaryOp → Expr
  | .neg => .neg a
  | .abs => .apply .abs a
  | .sqrt => .apply .sqrt a
  | .exp => .apply .exp a
  | .log => .apply .log a
  | .sin => .apply .sin a
  | .cos => .apply .cos a
  | .tanh => .apply .tanh a
  | .reciprocal => .paren (.binary .div (.convert t (.int 1)) a)
  | .square => .paren (.binary .mul a a)
  | .relu => .apply₂ .max a (.convert t (.int 0))

/-- A binary operation applied to expressions. -/
def binaryExpr (a b : Expr) : BinaryOp → Expr
  | .add => .paren (.binary .add a b)
  | .sub => .paren (.binary .sub a b)
  | .mul => .paren (.binary .mul a b)
  | .div => .paren (.binary .div a b)
  | .max => .apply₂ .max a b
  | .min => .apply₂ .min a b

/-- `a * b + c`, fused for floating point elements. -/
def mulAddExpr (isFloat : Bool) (a b c : Expr) : Expr :=
  if isFloat then .fma a b c else .paren (.binary .add (.binary .mul a b) c)

/-- An elementwise operation applied to expressions. Arguments beyond its arity are not used. -/
def elementwiseExpr (t : ScalarType) (isFloat : Bool) : Elementwise → List Expr → Except StepError Expr
  | .unary op, a :: _ => .ok (unaryExpr t a op)
  | .binary op, a :: b :: _ => .ok (binaryExpr a b op)
  | .fusedMulAdd, a :: b :: c :: _ => .ok (mulAddExpr isFloat a b c)
  | _, _ => .error .missingArgument

/-- The expression of a step on elements of a data type, written in a scalar type. -/
def stepExpr (kind : OpKind) (dtype : DType) (t : ScalarType) (args : List Expr) :
    Except StepError Expr :=
  if kind.floatOnly && dtype != .float32 then .error (.notFloat kind dtype)
  else if kind.signedOnly && dtype == .uint32 then .error (.notSigned kind dtype)
  else match kind with
    | .elementwise e => elementwiseExpr t (dtype == .float32) e args
    | _ => .error (.notElementwise kind)

/-! ## Kernels -/

/-- The parameters of all kernels but products: the number of elements, the invocations in a row of
the grid, and two scalars. -/
def params (slot : Int) (scalar : ScalarType) : Uniform :=
  ⟨slot, "Params", [("n", .u32), ("stride", .u32), ("a", scalar), ("b", scalar)]⟩

/-- The parameters of products. -/
def matMulParams (slot : Int) : Uniform :=
  ⟨slot, "MatMulParams", [("size", .u32), ("stride", .u32), ("batch", .u32), ("m", .u32), ("k", .u32),
    ("n", .u32), ("alpha", .f32), ("beta", .f32)]⟩

/-- The number of the invocation. -/
def idx : Expr := .var "idx"

/-- Writes the element of the invocation. -/
def storeOut (value : Expr) : Stmt := .store "out" idx value

def fillKernel (dtype : DType) (workgroupSize : Int) : Except SourceError Kernel := do
  let t ← scalarType dtype
  return {
    storage := [⟨0, true, "out", t⟩]
    params := params 1 (.ofParameter dtype)
    workgroupSize
    size := "n"
    body := [storeOut (.convert t (.param "a"))] }

/-- Whether a range is computed in the integers of the output: start and step must be whole. -/
def isIntegral (start step : Double) (dtype : DType) : Bool :=
  ScalarType.ofParameter dtype != .f32 && start.datum.isWhole && step.datum.isWhole

def arangeKernel (dtype : DType) (integral : Bool) (workgroupSize : Int) : Except SourceError Kernel := do
  let t ← scalarType dtype
  let scalar := if integral then .ofParameter dtype else .f32
  return {
    storage := [⟨0, true, "out", t⟩]
    params := params 1 scalar
    workgroupSize
    size := "n"
    body := [storeOut (.convert t
      (.binary .add (.param "a") (.binary .mul (.convert scalar idx) (.param "b"))))] }

/-- The name that holds an operand of a step. -/
def operandExpr : Operand → Expr
  | .input index => .var s!"x{index}"
  | .step index => .var s!"s{index}"

/-- The bindings of the steps from number `i` on. -/
def stepStmts (p : Program) (t : ScalarType) : (i : Nat) → List Step → Except SourceError (List Stmt)
  | _, [] => .ok []
  | i, s :: steps =>
    match stepExpr s.kind p.dtype t (s.operands.map operandExpr) with
    | .error e => .error (.step p.signature i e)
    | .ok e => (stepStmts p t (i + 1) steps).map (.bind s!"s{i}" e :: ·)

/-- The kernel of a program. Each input is loaded once, and results of steps are bound to names. -/
def programKernel (p : Program) (workgroupSize : Int) : Except SourceError Kernel := do
  match p.validate with
  | .error e => throw (.program e)
  | .ok _ =>
    let t ← scalarType p.dtype
    let steps ← stepStmts p t 0 p.steps
    let inputs := List.range p.numInputs.toNat
    return {
      storage := inputs.map (fun (i : Nat) => ⟨i, false, s!"in{i}", t⟩) ++ [⟨p.numInputs, true, "out", t⟩]
      params := params (p.numInputs + 1) .f32
      workgroupSize
      size := "n"
      body := inputs.map (fun (i : Nat) => .bind s!"x{i}" (.element s!"in{i}" idx)) ++ steps ++
        [storeOut (.var s!"s{p.steps.length - 1}")] }

/-- The element at `base + p` of the left operand of a product. -/
def lhsElement : Expr := .element "lhs" (.binary .add (.var "lhsBase") (.var "p"))

/-- The element at `base + p * n` of the right operand of a product. -/
def rhsElement : Expr :=
  .element "rhs" (.binary .add (.var "rhsBase") (.binary .mul (.var "p") (.param "n")))

/-- What is added up for one element of a product, and where it starts. -/
def matMulBody (t : ScalarType) (isFloat : Bool) : List Stmt :=
  [ .bind "mn" (.binary .mul (.param "m") (.param "n")),
    .bind "batch" (.binary .div idx (.var "mn")),
    .bind "row" (.binary .div (.paren (.binary .rem idx (.var "mn"))) (.param "n")),
    .bind "col" (.binary .rem idx (.param "n")),
    .bind "lhsBase" (.binary .add
      (.binary .mul (.binary .mul (.var "batch") (.param "m")) (.param "k"))
      (.binary .mul (.var "row") (.param "k"))),
    .bind "rhsBase" (.binary .add
      (.binary .mul (.binary .mul (.var "batch") (.param "k")) (.param "n")) (.var "col")),
    .declare "sum" (some t) (.convert t (.int 0)),
    .loop "p" (.param "k") (.assign "sum"
      (if isFloat then .fma (.convert t lhsElement) (.convert t rhsElement) (.var "sum")
       else .binary .add (.var "sum") (.binary .mul lhsElement rhsElement))) ]

/-- The result of a product from its sum, with or without a bias. -/
def matMulResult (t : ScalarType) (isFloat hasBias : Bool) : Expr :=
  if !hasBias then .convert t (.var "sum")
  else if isFloat then .convert t (.binary .add
    (.binary .mul (.param "alpha") (.convert .f32 (.element "bias" idx)))
    (.binary .mul (.param "beta") (.var "sum")))
  else .binary .add
    (.binary .mul (.convert t (.param "alpha")) (.element "bias" idx))
    (.binary .mul (.convert t (.param "beta")) (.var "sum"))

/-- The kernel of a matrix product, with one invocation for each element of the output. -/
def matMulKernel (dtype : DType) (hasBias : Bool) (workgroupSize : Int) : Except SourceError Kernel := do
  let t ← scalarType dtype
  let isFloat := dtype == .float32
  let bias : List Storage := if hasBias then [⟨2, false, "bias", t⟩] else []
  let slot : Int := if hasBias then 3 else 2
  return {
    storage := [⟨0, false, "lhs", t⟩, ⟨1, false, "rhs", t⟩] ++ bias ++ [⟨slot, true, "out", t⟩]
    params := matMulParams (slot + 1)
    workgroupSize
    size := "size"
    body := matMulBody t isFloat ++ [storeOut (matMulResult t isFloat hasBias)] }

/-- The updates for one axis: its coordinate is the remainder of what is left of the index. -/
def axisStmts (dim stride : Int) (last : Bool) : List Stmt :=
  .assign "src" (.binary .add (.var "src")
    (.binary .mul (.paren (.binary .rem (.var "rem") (.unsigned dim))) (.unsigned stride))) ::
  if last then [] else [.assign "rem" (.binary .div (.var "rem") (.unsigned dim))]

/-- The dimension and the stride of each axis of the output, the last axis first. -/
def permutedAxes? (operand : Shape) (permutation : List Int) : Option (List (Int × Int)) :=
  permutation.reverse.mapM fun axis =>
    if axis < 0 then none
    else do return (← operand.dims[axis.toNat]?, ← operand.strides[axis.toNat]?)

/-- The updates for all axes, the last axis of the output first. -/
def transposeStmts : List (Int × Int) → List Stmt
  | [] => []
  | (dim, stride) :: axes => axisStmts dim stride axes.isEmpty ++ transposeStmts axes

/-- The kernel of a transposition, with dimensions and strides written into it. -/
def transposeKernel (operand : Shape) (permutation : List Int) (workgroupSize : Int) :
    Except SourceError Kernel := do
  let t ← scalarType operand.dtype
  if permutation.length ≠ operand.rank then throw (.badPermutation permutation operand)
  let some axes := permutedAxes? operand permutation | throw (.badPermutation permutation operand)
  return {
    storage := [⟨0, false, "in0", t⟩, ⟨1, true, "out", t⟩]
    params := params 2 .f32
    workgroupSize
    size := "n"
    body := [.declare "rem" none idx, .declare "src" none (.unsigned 0)] ++ transposeStmts axes ++
      [storeOut (.element "in0" (.var "src"))] }

def castKernel (source target : DType) (workgroupSize : Int) : Except SourceError Kernel := do
  let s ← scalarType source
  let t ← scalarType target
  return {
    storage := [⟨0, false, "in0", s⟩, ⟨1, true, "out", t⟩]
    params := params 2 .f32
    workgroupSize
    size := "n"
    body := [storeOut (.convert t (.element "in0" idx))] }

def kernel (op : Operation) (inputs : List Shape) (output : Shape) (workgroupSize : Int) :
    Except SourceError Kernel :=
  match op with
  | .fill _ => fillKernel output.dtype workgroupSize
  | .arange start step =>
    arangeKernel output.dtype (isIntegral start step output.dtype) workgroupSize
  | .fused none => .error .noProgram
  | .fused (some p) => programKernel p workgroupSize
  | .elementwise e => programKernel (.single (.elementwise e) output.dtype) workgroupSize
  | .matMul _ _ hasBias => matMulKernel output.dtype hasBias workgroupSize
  | .transpose permutation =>
    match inputs with
    | [operand] => transposeKernel operand permutation workgroupSize
    | _ => .error (.transposeInputs inputs.length)
  | .cast source => castKernel source output.dtype workgroupSize
  | .other _ => .error (.unsupported op)

/-! ## Signatures -/

/-- What tells the kernels of operations apart, but for the size of the workgroup. -/
def operationSignature (op : Operation) (inputs : List Shape) (output : Shape) : String :=
  match op with
  | .fused none => "Fused(<nil>)"
  | .fused (some p) => p.signature
  | .elementwise e => (Program.single (.elementwise e) output.dtype).signature
  | .matMul _ _ hasBias => s!"MatMul|{output.dtype.name}|bias={hasBias}"
  | .transpose permutation =>
    let dims := (inputs.head?.map (·.dims)).getD []
    s!"Transpose|{output.dtype.name}|{Text.integers dims}|{Text.integers permutation}"
  | .cast source => s!"Cast|{source.name}|{output.dtype.name}"
  | .arange start step =>
    s!"Arange|{output.dtype.name}|integral={isIntegral start step output.dtype}"
  | _ => s!"{op.kind.name}|{output.dtype.name}"

/-- The signature of a kernel, by which it is found again. -/
def signature (op : Operation) (inputs : List Shape) (output : Shape) (workgroupSize : Int) : String :=
  s!"{operationSignature op inputs output}|wg{workgroupSize}"

end LazyTensor.Shader
