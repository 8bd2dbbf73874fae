import LazyTensor.Element.Flat
import LazyTensor.Part

/-!
# Nested data

Elements in row-major order as lists of lists, one level for each axis. The sizes of the parts are
64-bit words, so that dimensions whose product does not fit need not bound parts of the data.
-/

namespace LazyTensor

/-- An element, or a list of nested data. -/
inductive Nested (α : Type) where
  | leaf (a : α)
  | list (items : List (Nested α))

namespace Nested

/-- Dimensions for which there is no nested data. -/
inductive Error where
  /-- A dimension before the last is negative. -/
  | negativeLength
  /-- A dimension before the last is more than can be allocated. -/
  | allocation
  /-- A part is not within the data. -/
  | bounds
deriving DecidableEq

variable {α β ε : Type}

/-- The bytes of an entry of a list of lists. -/
def entryBytes : Nat := 24

/-- The items from number `i` on, as many as are asked for, or the first error. -/
def collect (item : Nat → Except ε β) : (count i : Nat) → Array β → Except ε (Array β)
  | 0, _, items => .ok items
  | count + 1, i, items =>
    match item i with
    | .ok x => collect item count (i + 1) (items.push x)
    | .error e => .error e

/-- The elements `data[start], ..., data[stop - 1]` with the given dimensions. The parts of an axis may
reach beyond `stop`, but not beyond the data. -/
def ofPart (data : Array α) : (dims : List Int) → (start stop : Nat) → Except Error (Nested α)
  | d :: e :: dims, start, _ =>
    if d < 0 then .error .negativeLength
    else if Layout.maxBytes < entryBytes * d.toNat then .error .allocation
    else
      let length := (e :: dims).foldl (· * ·) 1
      let part (i : Nat) : Except Error (Nested α) :=
        let first := wrap64 (i * length)
        let last := wrap64 ((i + 1) * length)
        if isPart first last (data.size - start) then
          ofPart data (e :: dims) (start + first.toNat) (start + last.toNat)
        else .error .bounds
      (collect part d.toNat 0 #[]).map fun items => .list items.toList
  | _, start, stop => .ok (.list ((data.extract start stop).toList.map .leaf))

/-- The elements of an array with the given dimensions, of which there is at least one. -/
def ofFlat (dims : List Int) (data : Array α) : Except Error (Nested α) := ofPart data dims 0 data.size

end Nested

end LazyTensor
