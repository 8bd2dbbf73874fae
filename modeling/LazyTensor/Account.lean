import LazyTensor.ByteSize
import LazyTensor.Failure

/-!
# Memory accounts

An account counts the live buffers of a backend and their bytes, against a limit if there is one.
Bytes are unsigned words of 64 bits.
-/

namespace LazyTensor

/-- The memory in use, and the most that was. A limit of zero is none. -/
structure Account where
  limit : UInt64
  buffers : Int := 0
  live : UInt64 := 0
  peak : UInt64 := 0
deriving DecidableEq

namespace Account

/-- The bytes asked for do not fit. -/
structure Error where
  size : UInt64
  live : UInt64
  limit : UInt64

instance : Failure Error where
  kind _ := .resource
  message e :=
    context (s!"allocating {ByteSize.text e.size} with {ByteSize.text e.live} already in use " ++
      s!"exceeds the limit of {ByteSize.text e.limit}") FailureKind.resource.cause

/-- Counts a new buffer, unless the limit would be exceeded. -/
def allocate (a : Account) (size : UInt64) : Except Error Account :=
  if 0 < a.limit ∧ a.limit < a.live + size then .error ⟨size, a.live, a.limit⟩
  else .ok { a with
    buffers := a.buffers + 1
    live := a.live + size
    peak := max a.peak (a.live + size) }

/-- Counts a released buffer. -/
def free (a : Account) (size : UInt64) : Account :=
  { a with buffers := a.buffers - 1, live := a.live - size }

/-- The peak starts again at what is in use. -/
def resetPeak (a : Account) : Account := { a with peak := a.live }

def text (a : Account) : String :=
  s!"{a.buffers} buffers, {ByteSize.text a.live} live, {ByteSize.text a.peak} peak"

end Account

end LazyTensor
