import LazyTensor.Element.Flat
import LazyTensor.Shape

/-!
# Host buffers

All buffers of host memory live in one heap and are known by their number. A finalized buffer keeps
its number, and a backend may hand it out again.
-/

namespace LazyTensor

abbrev BufferId := Nat

/-- The memory of one value. -/
structure HostBuffer where
  shape : Shape
  flat : Flat
  finalized : Bool

/-- All host buffers, by number. -/
structure Heap where
  buffers : Array HostBuffer := #[]

/-- What a caller passes as a buffer. -/
inductive BufferRef where
  /-- Nothing at all. -/
  | absent
  /-- A text in place of a buffer. -/
  | text
  /-- No buffer of the host. -/
  | null
  | host (id : BufferId)
  /-- A buffer of a shader device. -/
  | shader (id : Nat)
deriving DecidableEq

/-- The name of the type of what is passed. -/
def BufferRef.typeName : BufferRef → String
  | .absent => "<nil>"
  | .text => "string"
  | .null | .host _ => "*cpu.Buffer"
  | .shader _ => "*webgpu.Buffer"

/-- Why something cannot be used as a buffer of a backend. -/
inductive BufferError where
  | foreign (ref : BufferRef) (backend : String)
  | null
  | finalized (id : BufferId) (shape : Shape)
  | shaderFinalized (shape : Shape)

instance : Failure BufferError where
  kind _ := .plain
  message
    | .foreign ref backend => s!"buffer ({ref.typeName}) is not a {Text.quote backend} backend buffer"
    | .null => "nil buffer"
    | .finalized id shape =>
      s!"buffer 0x{Text.hex 8 id} {shape.text} used after being finalized"
    | .shaderFinalized shape => s!"buffer {shape.text} was already finalized"

namespace Heap

/-- The buffer with a number. -/
def get? (h : Heap) (id : BufferId) : Option HostBuffer := h.buffers[id]?

/-- A buffer that can be used: it exists and is not finalized. -/
def live (h : Heap) : BufferRef → Except BufferError (BufferId × HostBuffer)
  | .host id =>
    match h.get? id with
    | none => .error .null
    | some b => if b.finalized then .error (.finalized id b.shape) else .ok (id, b)
  | .null => .error .null
  | ref => .error (.foreign ref "cpu")

/-- Adds a buffer. -/
def push (h : Heap) (b : HostBuffer) : BufferId × Heap := (h.buffers.size, ⟨h.buffers.push b⟩)

/-- Replaces a buffer. -/
def set (h : Heap) (id : BufferId) (b : HostBuffer) : Heap := ⟨h.buffers.setIfInBounds id b⟩

end Heap

/-- Returned buffers of one data type and length. The one that was returned to an empty shelf is at
hand and goes out first; the others are stacked. -/
structure Shelf where
  atHand : Option BufferId := none
  stack : List BufferId := []

namespace Shelf

def put (s : Shelf) (id : BufferId) : Shelf :=
  match s.atHand with
  | none => { s with atHand := some id }
  | some _ => { s with stack := id :: s.stack }

def take? (s : Shelf) : Option (BufferId × Shelf) :=
  match s.atHand, s.stack with
  | some id, _ => some (id, { s with atHand := none })
  | none, id :: stack => some (id, { s with stack })
  | none, [] => none

end Shelf

/-- The shelves of returned buffers, by data type and length. -/
structure Shelves where
  shelves : List ((DType × Int) × Shelf) := []

namespace Shelves

def shelf (s : Shelves) (key : DType × Int) : Shelf := (s.shelves.lookup key).getD {}

def setShelf (s : Shelves) (key : DType × Int) (shelf : Shelf) : Shelves :=
  ⟨(key, shelf) :: s.shelves.filter (·.1 != key)⟩

/-- Returns a buffer. -/
def put (s : Shelves) (shape : Shape) (id : BufferId) : Shelves :=
  let key := (shape.dtype, shape.size)
  s.setShelf key ((s.shelf key).put id)

/-- Takes a returned buffer for a shape. -/
def take? (s : Shelves) (shape : Shape) : Option (BufferId × Shelves) :=
  let key := (shape.dtype, shape.size)
  (s.shelf key).take?.map fun (id, shelf) => (id, s.setShelf key shelf)

end Shelves

end LazyTensor
