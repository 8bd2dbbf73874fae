import LazyTensor.Operation.Kind

/-!
# Fused programs

A program is a list of elementwise steps over the same data type, run by one kernel. Each step takes
program inputs and results of earlier steps, and the result of the last step is that of the program.
`Program.validate` checks the wiring, and `Program.signature` is the identity of the kernel.
-/

namespace LazyTensor

/-- An operand of a step: a program input or the result of a step. -/
inductive Operand where
  | input (index : Int)
  | step (index : Int)
deriving DecidableEq

/-- One operation of a program. -/
structure Step where
  kind : OpKind
  operands : List Operand
deriving DecidableEq

/-- A list of steps over one data type. -/
structure Program where
  dtype : DType
  numInputs : Int
  steps : List Step
deriving DecidableEq

/-- The text of an operand: `i0` for the first input, `s0` for the result of the first step. -/
def Operand.text : Operand → String
  | .input index => s!"i{index}"
  | .step index => s!"s{index}"

/-- The text of a step, such as `Mul(i0,i1)`. -/
def Step.text (s : Step) : String :=
  s.kind.name ++ "(" ++ ",".intercalate (s.operands.map Operand.text) ++ ")"

namespace Program

/-- A kernel has at most eight storage buffers, and one is the output. -/
def maxInputs : Nat := 7

/-- The program of one elementwise operation on its inputs in order. Other kinds have no inputs. -/
def single (kind : OpKind) (dtype : DType) : Program :=
  { dtype
    numInputs := kind.arity
    steps := [⟨kind, (List.range kind.arity).map fun (i : Nat) => .input i⟩] }

/-- The identity of the kernel, such as `Float32|3|Mul(i0,i1);Add(s0,i2)`. -/
def signature (p : Program) : String :=
  s!"{p.dtype.name}|{p.numInputs}|" ++ ";".intercalate (p.steps.map Step.text)

inductive Error where
  | noSteps
  | inputCount (count : Int)
  | notElementwise (step : Nat) (kind : OpKind)
  | operandCount (step : Nat) (kind : OpKind) (count : Nat)
  | invalidInput (step : Nat) (operand : Operand)
  | notEarlier (step : Nat) (operand : Operand)
  | unusedInput (input : Nat)

/-- The reason of a rejected program. -/
def Error.reason : Error → String
  | .noSteps => "fused program has no steps"
  | .inputCount count => s!"fused program has {count} inputs, at most {maxInputs} are supported"
  | .notElementwise step kind => s!"fused program step #{step}: op {kind.name} is not elementwise"
  | .operandCount step kind count =>
    s!"fused program step #{step}: op {kind.name} takes {kind.arity} operands, got {count}"
  | .invalidInput step operand => s!"fused program step #{step}: invalid input {operand.text}"
  | .notEarlier step operand =>
    s!"fused program step #{step}: operand {operand.text} is not an earlier step"
  | .unusedInput input => s!"fused program input #{input} is never used"

instance : Failure Error where
  kind _ := .compilation
  message e := context e.reason FailureKind.compilation.cause

/-- An operand of step number `i` is one of the inputs or an earlier step. -/
def checkOperand (numInputs : Int) (i : Nat) : Operand → Except Error Unit
  | .input n => if n < 0 ∨ numInputs ≤ n then .error (.invalidInput i (.input n)) else .ok ()
  | .step n => if n < 0 ∨ (i : Int) ≤ n then .error (.notEarlier i (.step n)) else .ok ()

/-- Step number `i` is elementwise, with the right number of valid operands. -/
def checkStep (numInputs : Int) (i : Nat) (s : Step) : Except Error Unit := do
  if !s.kind.isElementwise then throw (.notElementwise i s.kind)
  if s.operands.length ≠ s.kind.arity then throw (.operandCount i s.kind s.operands.length)
  s.operands.forM (checkOperand numInputs i)

/-- The steps from number `i` on are valid. -/
def checkSteps (numInputs : Int) : (i : Nat) → List Step → Except Error Unit
  | _, [] => .ok ()
  | i, s :: steps => do
    checkStep numInputs i s
    checkSteps numInputs (i + 1) steps

/-- Whether some step takes the input. -/
def usesInput (p : Program) (i : Nat) : Bool :=
  p.steps.any fun s => s.operands.any (· == .input i)

/-- The program has steps, at most seven inputs, valid steps and no unused input. -/
def validate (p : Program) : Except Error Unit := do
  if p.steps.isEmpty then throw .noSteps
  if p.numInputs < 0 ∨ (maxInputs : Int) < p.numInputs then throw (.inputCount p.numInputs)
  checkSteps p.numInputs 0 p.steps
  match (List.range p.numInputs.toNat).find? fun i => !p.usesInput i with
  | some i => throw (.unusedInput i)
  | none => return ()

end Program

end LazyTensor
