import LazyTensor.Element.Arithmetic
import LazyTensor.Kernel.Range
import LazyTensor.Operation.Program

/-!
# Kernels of fused programs

The steps of a program are run one after the other on whole ranges. Only the last step writes to the output,
which may be one of its operands; the others write to arrays of their own. The element types of 16 bits are
widened first and rounded once at the end.
-/

namespace LazyTensor.Kernel

variable {α : Type} [Arithmetic α]

/-- One step on single elements. -/
def applyAt (kind : OpKind) (args : List α) : Option α :=
  match kind, args with
  | .elementwise (.unary op), [x] => Arithmetic.unary op x
  | .elementwise (.binary op), [x, y] => Arithmetic.binary op x y
  | .elementwise .fusedMulAdd, [x, y, z] => some (Arithmetic.mulAdd x y z)
  | _, _ => none

/-- The result of a step at an index, given the output as it is then. -/
def resultAt (kind : OpKind) (args : List (Source α)) (out : Array α) (i : Nat) : Option α :=
  (args.mapM fun x => (x.data out)[i]?).bind (applyAt kind)

/-- Writes `count` elements from index `i` on, one after the other. What comes before an element without
result is written. -/
def writeEach (value : Array α → Nat → Option α) : (count i : Nat) → Array α → Outcome α
  | 0, _, out => (out, none)
  | count + 1, i, out =>
    match value out i with
    | some y => writeEach value count (i + 1) (out.setIfInBounds i y)
    | none => (out, some .outOfBounds)

/-- The first index at which a divisor is zero. -/
def zeroDivisor? (kind : OpKind) (args : List (Source α)) (out : Array α) : Option Nat :=
  match kind with
  | .elementwise (.binary _) => (List.range out.size).find? fun i => (resultAt kind args out i).isNone
  | _ => none

/-- One step, which may read what it writes. Nothing is written if a divisor is zero. -/
def applyStep (kind : OpKind) (args : List (Source α)) (out : Array α) : Outcome α :=
  match zeroDivisor? kind args out with
  | some i => (out, some (.divisionByZero i))
  | none => writeEach (resultAt kind args) out.size 0 out

/-- The elements of an operand, given the program inputs and the results so far. -/
def operandSource (inputs : Array (Source α)) (results : Array (Array α)) : Operand → Source α
  | .input i => inputs.getD i.toNat (.apart #[])
  | .step i => .apart (results.getD i.toNat #[])

/-- The elements of an operand, for a step that does not write to the output. -/
def operandApart (inputs : Array (Source α)) (out : Array α) (results : Array (Array α)) (o : Operand) : Source α :=
  .apart ((operandSource inputs results o).data out)

/-- Runs the steps, given the results of the earlier ones. -/
def runSteps (inputs : Array (Source α)) (out : Array α) :
    (results : Array (Array α)) → List Step → Outcome α
  | _, [] => (out, none)
  | results, [s] => applyStep s.kind (s.operands.map (operandSource inputs results)) out
  | results, s :: steps =>
    -- what stands in the new array is overwritten
    match applyStep s.kind (s.operands.map (operandApart inputs out results)) out with
    | (_, some fault) => (out, some fault)
    | (y, none) => runSteps inputs out (results.push y) steps

/-- Runs a program on the range of elements of the type. -/
def runProgram (t : ElementType) (p : Program) (inputs : Array (Source t.Elem)) (out : Array t.Elem) (r : Range) :
    Outcome t.Elem :=
  let lanes := inputs.map (·.part t.widen r)
  let (y, fault) := runSteps lanes ((out.extract r.start r.stop).map t.widen) #[] p.steps
  (y.map t.narrow, fault)

end LazyTensor.Kernel
