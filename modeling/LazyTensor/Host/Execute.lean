import LazyTensor.Host.Basic
import LazyTensor.Kernel.Convert
import LazyTensor.Kernel.Product
import LazyTensor.Kernel.Steps
import LazyTensor.Kernel.Transpose

/-!
# Execution on the host

Each operation checks its arguments, takes an output buffer and runs its kernel over ranges. An
elementwise operation writes into the first input of the output's shape that the caller gives away,
and a product into its bias.
-/

namespace LazyTensor.HostM

/-- What a fault of a kernel means for the execution. -/
def ofFault : Fault → Stop
  | .divisionByZero position => .divisionByZero position
  | .outOfBounds => .rejected .outOfBounds
  | .elementType => .rejected .elementType

/-- The elements of a buffer, which must be of the type. -/
def elements (t : ElementType) (b : HostBuffer) : HostM Stop (Array t.Elem) :=
  match b.flat.as? t with
  | some data => return data
  | none => throw (.rejected .elementType)

/-- The elements of an operand: the output itself is read as it is written. -/
def source (t : ElementType) (out : BufferId) (operand : BufferId × HostBuffer) :
    HostM Stop (Kernel.Source t.Elem) := do
  let data ← elements t operand.2
  return if operand.1 = out then .output else .apart data

def elementType (output : Shape) : HostM Stop ElementType :=
  match output.dtype.element? with
  | some t => return t
  | none => throw (.rejected .elementType)

/-- The input with an index. -/
def input (inputs : List BufferId) (i : Nat) : HostM Stop BufferId :=
  match inputs[i]? with
  | some id => return id
  | none => throw (.rejected .outOfBounds)

/-- A new buffer whose element number `i` is `value i`. -/
def tabulate (output : Shape) (value : (t : ElementType) → Nat → t.Elem) : HostM Stop BufferId := do
  let out ← newBuffer output
  let t ← elementType output
  let data ← elements t (← buffer out)
  let ranges := (← get).host.ranges output.size
  write out (.ofElements t (Kernel.tabulate ranges (value t) data))
  return out

def fill (value : Double) (output : Shape) : HostM Stop BufferId :=
  tabulate output fun t =>
    let x := Kernel.ofDouble t value
    fun _ => x

def arange (start step : Double) (output : Shape) : HostM Stop BufferId :=
  tabulate output fun t i => Kernel.ofDouble t (Kernel.arangeValue start step i)

/-- The conversion of every element. To the same type it is a copy, and of an inert type there is nothing
to convert. -/
def cast (operand : BufferId) (output : Shape) : HostM Stop BufferId := do
  let b ← buffer operand
  if b.shape.dims ≠ output.dims then throw (.rejected (.castDims b.shape output))
  if b.shape.dtype = output.dtype then return ← clone operand
  match b.flat with
  | ⟨.element s, data⟩ => tabulate output fun t i => Kernel.castElement s t (data.getD i s.zero)
  | ⟨.inert _, _⟩ =>
    let out ← newBuffer output
    if !((← get).host.ranges output.size).isEmpty then throw (.rejected (.castType b.shape.dtype))
    return out

/-- The strides of the operand's axes, in the order of the permutation. -/
def permutedStrides (permutation : List Int) (operand : Shape) : Option (List Int) :=
  permutation.mapM fun axis => if axis < 0 then none else operand.strides[axis.toNat]?

/-- The operand with permuted axes. -/
def transpose (permutation : List Int) (operand : BufferId) (output : Shape) : HostM Stop BufferId := do
  let b ← buffer operand
  if permutation.length ≠ b.shape.rank ∨ output.rank ≠ b.shape.rank then
    throw (.rejected (.transposeRank permutation b.shape output))
  let some strides := permutedStrides permutation b.shape | throw (.rejected .outOfBounds)
  let out ← newBuffer output
  let ranges := (← get).host.ranges output.size
  if ranges.isEmpty then return out
  let t ← elementType output
  let src ← elements t b
  let (data, fault) := Kernel.overRanges ranges
    (Kernel.transpose src output.dims strides) (← elements t (← buffer out))
  write out (.ofElements t data)
  match fault with
  | some fault => throw (ofFault fault)
  | none => return out

/-- The kernel of a program, which must be valid and of an element type. -/
def kernelOf (program : Program) : Except Host.CompileError Program :=
  match program.validate with
  | .error e => .error (.invalid e)
  | .ok _ => if program.dtype.isSupported then .ok program else .error (.unsupported program.dtype)

/-- The kernel of a program, compiled if it is not in the cache. -/
def compile (program : Program) : HostM Stop Program := do
  let s ← get
  let (kernel, kernels) := s.host.kernels.get program.signature fun cache => (kernelOf program, cache)
  modifyHost ({ · with kernels })
  match kernel with
  | .ok kernel => return kernel
  | .error e => throw (.compile e)

/-- The first input that was given away and has the shape. -/
def reusable? (inputs : List (BufferId × HostBuffer)) (owned : List Bool) (output : Shape) :
    Option BufferId :=
  ((inputs.zip owned).find? fun ((_, b), own) => own && b.shape == output).map (·.1.1)

/-- The first input of another shape. -/
def otherShape? (inputs : List (BufferId × HostBuffer)) (output : Shape) : Option (Nat × Shape) :=
  (inputs.findIdx? fun (_, b) => b.shape != output).bind fun i =>
    inputs[i]?.map fun (_, b) => (i, b.shape)

/-- Runs an elementwise program; inputs and output have the same shape. A new output is given back if
the kernel fails. -/
def fused (program : Option Program) (inputs : List BufferId) (owned : List Bool) (output : Shape) :
    HostM Stop BufferId := do
  let some program := program | throw (.rejected .noProgram)
  if program.dtype ≠ output.dtype then throw (.rejected (.programDType program.dtype output))
  if (inputs.length : Int) ≠ program.numInputs then
    throw (.rejected (.inputCount program.signature program.numInputs inputs.length))
  let inputs ← inputs.mapM fun id => return (id, ← buffer id)
  if let some (i, shape) := otherShape? inputs output then
    throw (.rejected (.inputShape program.signature i shape output))
  let kernel ← compile program
  let reused := reusable? inputs owned output
  let out ← match reused with
    | some id => pure id
    | none => newBuffer output
  let t ← elementType output
  let sources ← inputs.mapM (source t out)
  let ranges := (← get).host.ranges output.size
  let (result, fault) := Kernel.inPlace ranges (Kernel.runProgram t kernel sources.toArray)
    (← elements t (← buffer out))
  write out (.ofElements t result)
  match fault with
  | none => return out
  | some fault =>
    if reused.isNone then recycle out
    throw (ofFault fault)

/-- Why shapes cannot be multiplied. -/
def productRejection (lhs rhs : Shape) : ProductDims.Error → Rejection
  | .ranks => .productRanks lhs rhs
  | .batches => .productBatches lhs rhs
  | .contracting => .productContracting lhs rhs

/-- The elements of a type of 16 bits or of single precision, as words of single precision. -/
def widened (b : HostBuffer) : HostM Stop (Array Single) :=
  match b.flat with
  | ⟨.element .float16, data⟩ => return data.map (ElementType.widen .float16)
  | ⟨.element .bfloat16, data⟩ => return data.map (ElementType.widen .bfloat16)
  | ⟨.element .float32, data⟩ => return data
  | flat => throw (.rejected (.notWidened flat.typeName))

/-- Ends a product of floating point matrices. -/
def checkFloatFault : Option Kernel.FloatFault → HostM Stop Unit
  | none => return ()
  | some .outOfBounds => throw (.rejected .outOfBounds)
  | some (.dimensions reason) => throw (.abort reason)

/-- The product in the precision of the output. -/
def floatProduct {f : FloatFormat} (t : ElementType) (h : t.Elem = FloatWord f) (d : ProductDims)
    (lhs rhs : BufferId × HostBuffer) (out : BufferId) (alpha beta : FloatWord f) :
    HostM Stop Unit := do
  let lhs ← source t out lhs
  let rhs ← source t out rhs
  let old ← elements t (← buffer out)
  let ranges := (← get).host.workers.ranges d.batch 1
  let (data, fault) := Kernel.floatProduct ranges d (h ▸ lhs) (h ▸ rhs) alpha beta (h ▸ old)
  write out (.ofElements t (h ▸ data))
  checkFloatFault fault

/-- The product in single precision, of which the elements of 16 bits are rounded at the end. -/
def halfProduct (t : ElementType) (narrow : Single → t.Elem) (d : ProductDims)
    (lhs rhs : HostBuffer) (out : BufferId) (output : Shape) (hasBias : Bool) (alpha beta : Single) :
    HostM Stop Unit := do
  let old ← if hasBias then widened (← buffer out)
    else pure (Array.replicate output.size.toNat FloatWord.zero)
  let lhs ← widened lhs
  let rhs ← widened rhs
  let ranges := (← get).host.workers.ranges d.batch 1
  let (data, fault) := Kernel.floatProduct ranges d (.apart lhs) (.apart rhs) alpha beta old
  checkFloatFault fault
  write out (.ofElements t (data.map narrow))

/-- The product of integers. The coefficients are truncated and clamped. -/
def integerProduct {f : IntFormat} (t : ElementType) (h : t.Elem = IntWord f) (d : ProductDims)
    (lhs rhs : BufferId × HostBuffer) (out : BufferId) (coefficients : Option (Double × Double)) :
    HostM Stop Unit := do
  let ranges := (← get).host.ranges (wrap64 (d.batch * d.m))
  if ranges.isEmpty then return
  let lhs ← source t out lhs
  let rhs ← source t out rhs
  let old ← elements t (← buffer out)
  let words := coefficients.map fun (alpha, beta) =>
    (Scalar.toIntWord (.double alpha), Scalar.toIntWord (.double beta))
  let (data, fault) := Kernel.integerProduct ranges d (h ▸ lhs) (h ▸ rhs) words (h ▸ old)
  write out (.ofElements t (h ▸ data))
  match fault with
  | some fault => throw (ofFault fault)
  | none => return

/-- The last part of a product: the elements are written into the output. -/
def multiply (d : ProductDims) (lhs rhs : BufferId × HostBuffer) (out : BufferId) (output : Shape)
    (hasBias : Bool) (alpha beta : Double) : ElementType → HostM Stop BufferId
  | .float32 => do floatProduct .float32 rfl d lhs rhs out (alpha.convert : Single) beta.convert; return out
  | .float64 => do floatProduct .float64 rfl d lhs rhs out alpha beta; return out
  | .float16 => do
    halfProduct .float16 Half.ofSingle d lhs.2 rhs.2 out output hasBias alpha.convert beta.convert; return out
  | .bfloat16 => do
    halfProduct .bfloat16 BFloat.ofSingle d lhs.2 rhs.2 out output hasBias alpha.convert beta.convert; return out
  | .uint8 => do integerProduct .uint8 rfl d lhs rhs out (if hasBias then some (alpha, beta) else none); return out
  | .uint32 => do integerProduct .uint32 rfl d lhs rhs out (if hasBias then some (alpha, beta) else none); return out
  | .int32 => do integerProduct .int32 rfl d lhs rhs out (if hasBias then some (alpha, beta) else none); return out
  | .int64 => do integerProduct .int64 rfl d lhs rhs out (if hasBias then some (alpha, beta) else none); return out

/-- The product of matrices, or with a bias `alpha * bias + beta * product`. -/
def matMul (alpha beta : Double) (hasBias : Bool) (inputs : List BufferId) (owned : List Bool)
    (output : Shape) : HostM Stop BufferId := do
  let lhsId ← input inputs 0
  let rhsId ← input inputs 1
  let lhs ← buffer lhsId
  let rhs ← buffer rhsId
  let d ← match ProductDims.ofShapes lhs.shape rhs.shape with
    | .ok d => pure d
    | .error e => throw (.rejected (productRejection lhs.shape rhs.shape e))
  let out ← if hasBias then
      let biasId ← input inputs 2
      let bias ← buffer biasId
      if bias.shape ≠ output then throw (.rejected (.biasShape bias.shape output))
      if owned.getD 2 false then pure biasId else clone biasId
    else newBuffer output
  let (alpha, beta) := if hasBias then (alpha, beta) else (.zero, .ofInt 1)
  multiply d (lhsId, lhs) (rhsId, rhs) out output hasBias alpha beta (← elementType output)

/-- Runs an operation on buffers that can be used. -/
def runOperation (op : Operation) (inputs : List BufferId) (owned : List Bool) (output : Shape) :
    HostM Stop BufferId :=
  match op with
  | .fill value => fill value output
  | .arange start step => arange start step output
  | .fused program => fused program inputs owned output
  | .elementwise e => fused (Program.single (.elementwise e) output.dtype) inputs owned output
  | .matMul alpha beta hasBias => matMul alpha beta hasBias inputs owned output
  | .transpose permutation => do transpose permutation (← input inputs 0) output
  | .cast _ => do cast (← input inputs 0) output
  | .other _ => throw (.rejected (.notImplemented op))

/-- The numbers of the inputs, all of which can be used. -/
def liveInputs (op : Operation) (heap : Heap) : (i : Nat) → List BufferRef → Except HostError (List BufferId)
  | _, [] => .ok []
  | i, ref :: refs =>
    match heap.live ref with
    | .error e => .error (.input op i e)
    | .ok (id, _) => (liveInputs op heap (i + 1) refs).map (id :: ·)

/-- Executes an operation. `owned` says which inputs the caller gives away; if it has another length
than the inputs, none are. The result is a new buffer or one of those inputs. -/
def execute (op : Operation) (inputs : List BufferRef) (owned : List Bool) (output : Shape) :
    HostM HostError BufferId := do
  let s ← get
  if s.host.finalized then throw .finalized
  match Capabilities.host.checkOperation Host.name op output.dtype with
  | .error e => throw (.unsupported e)
  | .ok _ =>
    let ids ← liveInputs op s.heap 0 inputs
    let owned := if owned.length = inputs.length then owned else inputs.map fun _ => false
    ExceptT.adapt (.stopped op output) (runOperation op ids owned output)

/-- Data that a caller hands over: elements of one type, or something that is no list of elements. -/
inductive Payload where
  | flat (data : Flat)
  | scalar (typeName : String)

def Payload.typeName : Payload → String
  | .flat data => data.typeName
  | .scalar typeName => typeName

def checkLayout (call : String) (shape : Shape) (layout : Layout) : Except HostError Unit :=
  match shape.dtype.bytes with
  | .error e => .error (.noSize e)
  | .ok _ =>
    if shape.dtype ≠ layout.type.dtype then .error (.flatType call layout.typeName shape.dtype)
    else if (layout.size : Int) ≠ shape.size then .error (.flatLength call layout.size shape)
    else .ok ()

/-- A new buffer with the data. -/
def fromPayload (payload : Payload) (shape : Shape) : HostM HostError BufferId := do
  if !shape.ok then throw (.invalidShape shape)
  match payload with
  | .scalar typeName => throw (.flatType "BufferFromFlatData" typeName shape.dtype)
  | .flat data =>
    checkLayout "BufferFromFlatData" shape data.layout
    let id ← ExceptT.adapt .transfer (newBuffer shape)
    write id data
    return id

/-- The elements of a buffer, for a destination of some layout. -/
def toPayload (ref : BufferRef) (destination : Layout) : HostM HostError Flat := do
  match (← get).heap.live ref with
  | .error e => throw (.buffer e)
  | .ok (_, b) =>
    checkLayout "BufferToFlatData" b.shape destination
    return b.flat

def shapeOf (ref : BufferRef) : HostM HostError Shape := do
  match (← get).heap.live ref with
  | .error e => throw (.buffer e)
  | .ok (_, b) => return b.shape

/-- Gives a buffer back. -/
def finalizeBuffer (ref : BufferRef) : HostM HostError Unit := do
  match (← get).heap.live ref with
  | .error e => throw (.finalizeBuffer e)
  | .ok (id, _) => recycle id

end LazyTensor.HostM
