import LazyTensor.Kernel.Range

/-!
# Kernels that transpose

The elements of the output are walked through in row-major order. A cursor holds the coordinates in
the output and, along with them, the flat index in the operand: a step along an axis moves that index
by the stride of the axis, and a carry moves it back over the whole axis. The flat index is a 64-bit
word: it may wrap around on the way, and only where an element is read must it be within the operand.
-/

namespace LazyTensor.Kernel

/-- An axis of the output with the coordinate on it. One step along it moves the flat index of the
operand by `stride`. -/
structure AxisCursor where
  dim : Int
  stride : Int
  index : Int

/-- A place in the output. -/
structure Cursor where
  /-- The axes, the last one first. -/
  axes : List AxisCursor
  /-- The flat index in the operand. -/
  source : Int

namespace Cursor

/-- The coordinates of a flat index on axes given by dimension and stride, the last one first. -/
def axesAt : List (Int × Int) → (index : Int) → List AxisCursor
  | [], _ => []
  | (dim, stride) :: axes, index => ⟨dim, stride, index.tmod dim⟩ :: axesAt axes (index.tdiv dim)

/-- The place of flat index `i` of an output with these dimensions, whose axes move the flat index of
the operand by these strides. -/
def start (dims strides : List Int) (i : Nat) : Cursor :=
  let axes := axesAt (dims.zip strides).reverse i
  ⟨axes, axes.foldl (fun source a => wrap64 (source + a.index * a.stride)) 0⟩

/-- One step along the first of the axes, with a carry into the others at its end. -/
def advance : List AxisCursor → (source : Int) → List AxisCursor × Int
  | [], source => ([], source)
  | a :: axes, source =>
    if a.index + 1 < a.dim then ({ a with index := a.index + 1 } :: axes, wrap64 (source + a.stride))
    else
      let (axes, source) := advance axes (wrap64 (source + a.stride - a.stride * a.dim))
      ({ a with index := 0 } :: axes, source)

/-- The next place of the output. -/
def next (c : Cursor) : Cursor :=
  let (axes, source) := advance c.axes c.source
  ⟨axes, source⟩

end Cursor

variable {α : Type}

/-- The elements of the operand at `count` places from a cursor on, after those collected before. It ends
at a place that has none. -/
def collect (src : Array α) : (count : Nat) → Cursor → (out : Array α) → Outcome α
  | 0, _, out => (out, none)
  | count + 1, c, out =>
    match if c.source < 0 then none else src[c.source.toNat]? with
    | some x => collect src count c.next (out.push x)
    | none => (out, some .outOfBounds)

/-- A range of the transposed operand. -/
def transpose (src : Array α) (dims strides : List Int) (r : Range) : Outcome α :=
  collect src (r.stop - r.start) (.start dims strides r.start) #[]

end LazyTensor.Kernel
