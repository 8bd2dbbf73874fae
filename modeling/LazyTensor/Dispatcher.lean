import LazyTensor.DType

/-!
# Dispatch on data types

A dispatcher has one function for each data type that it supports.
-/

namespace LazyTensor

/-- Functions by data type. -/
structure Dispatcher (φ : Type) where
  name : String
  entries : List (DType × φ) := []

namespace Dispatcher

variable {φ : Type}

/-- A dispatcher has room for data types with a number below this. -/
def capacity : Int := 32

inductive Error where
  | unsupported (dtype : DType) (dispatcher : String)

instance : Failure Error where
  kind _ := .plain
  message | .unsupported dtype dispatcher => s!"dtype {dtype.name} not supported by {dispatcher}"

/-- Whether there is room for a data type. -/
def hasRoom (dtype : DType) : Bool := 0 ≤ dtype.code && dtype.code < capacity

/-- Sets the function of a data type. -/
def register (d : Dispatcher φ) (dtype : DType) (f : φ) : Except Error (Dispatcher φ) :=
  if hasRoom dtype then .ok { d with entries := (dtype, f) :: d.entries.filter (·.1 != dtype) }
  else .error (.unsupported dtype d.name)

/-- The function of a data type. -/
def get (d : Dispatcher φ) (dtype : DType) : Except Error φ :=
  match d.entries.lookup dtype with
  | some f => .ok f
  | none => .error (.unsupported dtype d.name)

end Dispatcher

end LazyTensor
