import LazyTensor.Account
import LazyTensor.Capabilities
import LazyTensor.Host.Buffer
import LazyTensor.Kernel.Fault
import LazyTensor.KernelCache

/-!
# Errors of the host

Why the host does not execute an operation or transfer data, and the texts of these errors.
-/

namespace LazyTensor

/-- Why the arguments of an operation are rejected, or its kernel stops. -/
inductive Rejection where
  | noProgram
  | programDType (dtype : DType) (output : Shape)
  | inputCount (signature : String) (takes : Int) (got : Nat)
  | inputShape (signature : String) (index : Nat) (shape expected : Shape)
  | castDims (operand output : Shape)
  | transposeRank (permutation : List Int) (operand output : Shape)
  | productRanks (lhs rhs : Shape)
  | productBatches (lhs rhs : Shape)
  | productContracting (lhs rhs : Shape)
  | biasShape (bias output : Shape)
  | notWidened (typeName : String)
  | outOfBounds
  | elementType
  | allocation
  | castType (dtype : DType)
  | notImplemented (op : Operation)

def Rejection.reason : Rejection → String
  | .noProgram => "fused op without a program"
  | .programDType dtype output =>
    s!"fused program dtype {dtype.name} doesn't match output {output.text}"
  | .inputCount signature takes got =>
    s!"fused program {Text.quote signature} takes {takes} inputs, got {got}"
  | .inputShape signature index shape expected =>
    s!"fused program {Text.quote signature} input #{index} has shape {shape.text}, " ++
      s!"expected {expected.text}"
  | .castDims operand output => s!"Cast of {operand.text} into {output.text}: dimensions differ"
  | .transposeRank permutation operand output =>
    s!"Transpose{Text.integers permutation} of {operand.text} into {output.text}: invalid rank"
  | .productRanks lhs rhs =>
    s!"MatMul of {lhs.text} and {rhs.text}: ranks must be both 2 or both 3"
  | .productBatches lhs rhs => s!"MatMul of {lhs.text} and {rhs.text}: batch dimensions differ"
  | .productContracting lhs rhs =>
    s!"MatMul of {lhs.text} and {rhs.text}: contracting dimensions differ"
  | .biasShape bias output => s!"MatMul bias shape {bias.text} doesn't match output {output.text}"
  | .notWidened typeName => s!"toFloat32: unsupported flat type {typeName}"
  | .outOfBounds => "runtime panic: : runtime error"
  | .elementType => "runtime panic: : interface conversion"
  | .allocation => "runtime panic: : " ++ Failure.message Layout.Error.allocation
  | .castType dtype => s!"dtype {dtype.name} not supported by Cast"
  | .notImplemented op => s!"op {op.text} not implemented by backend cpu"

/-- Why a program is not compiled. -/
inductive Host.CompileError where
  | invalid (cause : Program.Error)
  | unsupported (dtype : DType)

def Host.CompileError.reason : Host.CompileError → String
  | .invalid cause => cause.reason
  | .unsupported dtype => s!"dtype {dtype.name} not supported by backend cpu"

/-- Why an execution stops. -/
inductive Stop where
  /-- There is not enough memory for a buffer. -/
  | limit (shape : Shape) (cause : Account.Error)
  /-- The program cannot be compiled. -/
  | compile (cause : KernelCache.Error Host.CompileError)
  /-- An integer was divided by zero. -/
  | divisionByZero (position : Nat)
  | rejected (cause : Rejection)
  /-- The call cannot go on. -/
  | abort (reason : String)

inductive HostError where
  | finalized
  | unsupported (cause : Capabilities.Error)
  | input (op : Operation) (index : Nat) (cause : BufferError)
  | stopped (op : Operation) (output : Shape) (cause : Stop)
  /-- A buffer cannot be used. -/
  | buffer (cause : BufferError)
  | finalizeBuffer (cause : BufferError)
  | invalidShape (shape : Shape)
  /-- Data of another type than that of the shape. -/
  | flatType (call typeName : String) (dtype : DType)
  /-- Data of another length than that of the shape. -/
  | flatLength (call : String) (length : Nat) (shape : Shape)
  | noSize (cause : DType.Error)
  /-- There is not enough memory for the data. -/
  | transfer (cause : Stop)

/-- Why an execution stops for which no buffer can be made. -/
def Stop.ofLayout : Layout.Error → Stop
  | .noSize _ => .rejected .elementType
  | .negativeLength => .abort (Failure.message Layout.Error.negativeLength)
  | .allocation => .rejected .allocation

def Stop.kind : Stop → FailureKind
  | .limit .. => .resource
  | .compile _ => .compilation
  | .divisionByZero _ => .execution
  | .rejected _ => .execution
  | .abort _ => .abort

/-- The text of an error that stopped an execution, given a text for what was executed. -/
def Stop.message (executed : String) : Stop → String
  | .limit shape cause => context s!"backend cpu allocating {shape.text}" (Failure.message cause)
  | .compile cause => context (cause.reason Host.CompileError.reason) FailureKind.compilation.cause
  | .divisionByZero position =>
    context s!"integer division by zero at element {position}" FailureKind.execution.cause
  | .rejected cause => context (context executed cause.reason) FailureKind.execution.cause
  | .abort reason => reason

instance : Failure HostError where
  kind
    | .finalized => .execution
    | .unsupported cause => Failure.kind cause
    | .input .. => .execution
    | .stopped _ _ cause => cause.kind
    | .transfer cause => cause.kind
    | _ => .plain
  message
    | .finalized => context "backend cpu already finalized" FailureKind.execution.cause
    | .unsupported cause => Failure.message cause
    | .input op index cause => context
      (context s!"{op.text} input #{index}" (Failure.message cause)) FailureKind.execution.cause
    | .stopped op output cause => cause.message s!"{op.text} -> {output.text}"
    | .buffer cause => Failure.message cause
    | .finalizeBuffer cause => context "BufferFinalize" (Failure.message cause)
    | .invalidShape shape => s!"BufferFromFlatData: invalid shape {shape.text}"
    | .flatType call typeName dtype => s!"{call}: flat ({typeName}) doesn't match dtype {dtype.name}"
    | .flatLength call length shape =>
      s!"{call}: flat has {length} elements, shape {shape.text} requires {shape.size}"
    | .noSize cause => Failure.message cause
    | .transfer cause => cause.message ""

end LazyTensor
