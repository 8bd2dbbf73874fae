import LazyTensor.Number.Decimal
import LazyTensor.Operation.Program
import LazyTensor.Text.Listing

/-!
# Operations

An operation is a kind of operation with its parameters.
-/

namespace LazyTensor

/-- An operation with its parameters. -/
inductive Operation where
  /-- Every element is the value. -/
  | fill (value : Double)
  /-- Element `i` is `start + i * step`. -/
  | arange (start step : Double)
  | elementwise (e : Elementwise)
  /-- The steps of a program, in one kernel. -/
  | fused (program : Option Program)
  /-- The matrix product, or with a bias `alpha * bias + beta * product`. -/
  | matMul (alpha beta : Double) (hasBias : Bool)
  /-- Axis `i` of the output is axis `permutation[i]` of the operand. -/
  | transpose (permutation : List Int)
  /-- Conversion from a data type to that of the output. -/
  | cast (source : DType)
  /-- No operation. -/
  | other (kind : OpKind)

namespace Operation

def kind : Operation → OpKind
  | .fill _ => .fill
  | .arange .. => .arange
  | .elementwise e => .elementwise e
  | .fused _ => .fused
  | .matMul .. => .matMul
  | .transpose _ => .transpose
  | .cast _ => .cast
  | .other kind => kind

/-- The operation with its parameters as text. -/
def text : Operation → String
  | .fill value => s!"Fill({value.text})"
  | .arange start step => s!"Arange(start={start.text}, step={step.text})"
  | .matMul alpha beta hasBias =>
    if hasBias then s!"MatMul(alpha={alpha.text}, beta={beta.text})" else "MatMul"
  | .transpose permutation => s!"Transpose{Text.integers permutation}"
  | .cast source => s!"Cast(from={source.name})"
  | .fused none => "Fused(<nil>)"
  | .fused (some p) => "Fused[" ++ ",".intercalate (p.steps.map (·.kind.name)) ++ "]"
  | .elementwise e => e.name
  | .other kind => kind.name

/-- The program that computes an elementwise or fused operation on a data type. -/
def program? (dtype : DType) : Operation → Option Program
  | .elementwise e => some (.single (.elementwise e) dtype)
  | .fused p => p
  | _ => none

end Operation

end LazyTensor
