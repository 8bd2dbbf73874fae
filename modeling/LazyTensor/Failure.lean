/-!
# Failures

Every part of the library has its own type of errors. A `Failure` instance says of what kind such an
error is, and gives its text.
-/

namespace LazyTensor

/-- The kinds of failures that a caller can tell apart. -/
inductive FailureKind where
  /-- Operands from which a node cannot be built. -/
  | construction
  /-- The values of a tensor that holds none were asked for. -/
  | notMaterialized
  /-- A kernel could not be made, or a device does not support the operation. -/
  | compilation
  /-- A kernel failed. -/
  | execution
  /-- The memory limit was reached. -/
  | resource
  /-- The device is not there. -/
  | unavailable
  /-- Something was used that does not exist. -/
  | fault
  /-- A call stopped and could not be continued. -/
  | abort
  /-- Any other error. -/
  | plain
deriving DecidableEq

/-- The text at the end of the errors of a kind. -/
def FailureKind.cause : FailureKind → String
  | .construction => "invalid graph construction"
  | .notMaterialized => "tensor not materialized"
  | .compilation => "kernel compilation failed"
  | .execution => "kernel execution failed"
  | .resource => "out of device memory"
  | .unavailable => "device not available"
  | .fault => "runtime error"
  | .abort => ""
  | .plain => ""

/-- Types of errors with a kind and a text. -/
class Failure (ε : Type) where
  kind : ε → FailureKind
  message : ε → String

/-- A text before the text of a cause. -/
def context (before cause : String) : String := before ++ ": " ++ cause

end LazyTensor
