/-!
# Faults of kernels

Why a kernel stops before its end.
-/

namespace LazyTensor

inductive Fault where
  /-- The divisor of an integer division is zero, at a position within the range of the worker. -/
  | divisionByZero (position : Nat)
  /-- An index is out of bounds, or an integer without reciprocal was inverted. -/
  | outOfBounds
  /-- The elements are of another type than the kernel expects. -/
  | elementType
deriving DecidableEq

end LazyTensor
