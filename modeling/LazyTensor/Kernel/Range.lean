import LazyTensor.Kernel.Fault
import LazyTensor.Workers

/-!
# Kernels over ranges

A kernel works range by range. Each range writes its own part of the output, and the kernel fails
with the fault of the first range that has one, after all ranges were run. The output may be one of the
operands (`Source`); a kernel that works in place is given it as the ranges before have left it.
-/

namespace LazyTensor.Kernel

/-- Elements that are read while an output is written: others than those of the output, or its own. -/
inductive Source (α : Type) where
  | apart (data : Array α)
  | output

namespace Source

variable {α β : Type}

/-- All elements, given the output. -/
def data (s : Source α) (out : Array α) : Array α :=
  match s with
  | .apart data => data
  | .output => out

/-- The number of elements, given the output. -/
def size (s : Source α) (out : Array α) : Nat :=
  match s with
  | .apart data => data.size
  | .output => out.size

/-- An element, given the output. -/
def getD (s : Source α) (out : Array α) (i : Nat) (default : α) : α :=
  match s with
  | .apart data => data.getD i default
  | .output => out.getD i default

/-- The elements of a range, converted. For the output itself they are those of its own range. -/
def part (s : Source α) (f : α → β) (r : Range) : Source β :=
  match s with
  | .apart data => .apart ((data.extract r.start r.stop).map f)
  | .output => .output

end Source

variable {β : Type}

/-- The output with `xs` written from index `start` on. -/
def writeAt (out : Array β) (start : Nat) (xs : Array β) : Array β :=
  out.extract 0 start ++ xs ++ out.extract (start + xs.size) out.size

/-- What the kernel wrote from the start of a range on, and why it stopped. -/
abbrev Outcome (β : Type) := Array β × Option Fault

/-- Runs a kernel on every range. -/
def overRanges (ranges : List Range) (run : Range → Outcome β) (out : Array β) : Outcome β :=
  ranges.foldl (fun (out, fault) r =>
    let (xs, fault') := run r
    (writeAt out r.start xs, fault.or fault')) (out, none)

/-- Runs a kernel on every range, given the output as it is then. -/
def inPlace (ranges : List Range) (run : Array β → Range → Outcome β) (out : Array β) : Outcome β :=
  ranges.foldl (fun (out, fault) r =>
    let (xs, fault') := run out r
    (writeAt out r.start xs, fault.or fault')) (out, none)

/-- Writes `value i` at every index `i` of the ranges. -/
def tabulate (ranges : List Range) (value : Nat → β) (out : Array β) : Array β :=
  (overRanges ranges (fun r => (Array.ofFn fun i : Fin (r.stop - r.start) => value (r.start + i), none))
    out).1

end LazyTensor.Kernel
