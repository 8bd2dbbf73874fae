import LazyTensor.Configuration
import LazyTensor.Device
import LazyTensor.Host.Error
import LazyTensor.Workers

/-!
# The host backend

The host executes operations on buffers of its memory. It has workers, an account of its buffers, the
kernels it compiled, and shelves of returned buffers that are used again.
-/

namespace LazyTensor

/-- A backend on the host. -/
structure Host where
  workers : Workers
  /-- The least number of elements of a range. -/
  minParallel : Int
  account : Account
  kernels : KernelCache Program := { name := "cpu" }
  shelves : Shelves := {}
  finalized : Bool := false

/-- A host with the heap in which its buffers live. -/
structure HostState where
  host : Host
  heap : Heap

/-- Steps on a host. The state is kept when one fails. -/
abbrev HostM (ε : Type) := ExceptT ε (StateM HostState)

namespace Host

def name : String := "cpu"

def description : String := "Portable parallel Go backend for the host CPU"

/-- The least number of elements of a range, if nothing else is said. -/
def defaultMinParallel : Int := 16 * 1024

def ofConfiguration (configuration : String) : Except Options.Error Host := do
  let options ← Options.parse name configuration
  let (parallelism, options) := options.popInt "parallelism" Workers.defaultProcessors
  let parallelism ← parallelism
  let (minParallel, options) := options.popInt "minparallel" defaultMinParallel
  let minParallel ← minParallel
  let (limit, options) := options.popString "memlimit" ""
  let limit ← Options.memoryLimit limit
  options.done
  return { workers := .withParallelism parallelism, minParallel, account := { limit } }

/-- Ends the host: it executes nothing more and forgets returned buffers. -/
def finalize (h : Host) : Host := { h with finalized := true, shelves := {} }

/-- The ranges in which work on `n` elements is done. -/
def ranges (h : Host) (n : Int) : List Range := h.workers.ranges n h.minParallel

end Host

namespace HostM

variable {ε : Type}

def modifyHost (f : Host → Host) : HostM ε Unit := modify fun s => { s with host := f s.host }

def modifyHeap (f : Heap → Heap) : HostM ε Unit := modify fun s => { s with heap := f s.heap }

/-- A new buffer for a shape: a returned one with its old elements, or a fresh one of zeros. -/
def newBuffer (shape : Shape) : HostM Stop BufferId := do
  let s ← get
  match s.host.account.allocate shape.footprint with
  | .error e => throw (.limit shape e)
  | .ok account => modifyHost ({ · with account })
  match s.host.shelves.take? shape with
  | some (id, shelves) =>
    modifyHost ({ · with shelves })
    if let some b := s.heap.get? id then
      modifyHeap (·.set id { b with shape, finalized := false })
    return id
  | none =>
    match Layout.make shape.dtype shape.size with
    | .error e => throw (.ofLayout e)
    | .ok layout =>
      let (id, heap) := s.heap.push ⟨shape, .zeros layout, false⟩
      modifyHeap fun _ => heap
      return id

/-- Gives a buffer back. -/
def recycle (id : BufferId) : HostM ε Unit := do
  let s ← get
  if let some b := s.heap.get? id then
    modifyHeap (·.set id { b with finalized := true })
    modifyHost fun h => { h with
      account := h.account.free b.shape.footprint
      shelves := h.shelves.put b.shape id }

/-- Replaces the elements of a buffer. -/
def write (id : BufferId) (flat : Flat) : HostM ε Unit := do
  let s ← get
  if let some b := s.heap.get? id then modifyHeap (·.set id { b with flat })

/-- A buffer by its number. -/
def buffer (id : BufferId) : HostM Stop HostBuffer := do
  match (← get).heap.get? id with
  | some b => return b
  | none => throw (.rejected .outOfBounds)

/-- A new buffer with the shape and the elements of another. -/
def clone (id : BufferId) : HostM Stop BufferId := do
  let b ← buffer id
  let copy ← newBuffer b.shape
  write copy b.flat
  return copy

end HostM

end LazyTensor
