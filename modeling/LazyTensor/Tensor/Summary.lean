import LazyTensor.Element.Flat
import LazyTensor.Shape

/-!
# Summaries

The elements of an array as text, in braces for each axis. Of an axis with more than six entries only
the first and the last three are shown.
-/

namespace LazyTensor.Summary

/-- The entries shown at each end of a long axis. -/
def edge : Nat := 3

/-- What is shown: an element by its flat index, the mark of an elision, or the entries of an axis. -/
inductive Item where
  | value (index : Nat)
  | elided
  | group (items : List Item)

/-- Dimensions of which there is no summary. -/
inductive Error where
  /-- A dimension is negative. -/
  | negativeLength
  /-- An element is not within the data. -/
  | bounds
deriving DecidableEq

/-- The positions shown of an axis, where `none` is the elision. -/
def visible (n : Nat) : List (Option Nat) :=
  if n ≤ 2 * edge then (List.range n).map some
  else (List.range edge).map some ++ [none] ++ (List.range edge).map fun i => some (n - edge + i)

/-- What is shown of an array that starts at a flat index of the data, or the first error in the order
of the text. Flat indices are 64-bit words, and need not be within the data if the size does not fit. -/
def outline (size : Nat) : (dims : List Int) → (offset : Int) → Except Error Item
  | [], offset => if 0 ≤ offset ∧ offset < size then .ok (.value offset.toNat) else .error .bounds
  | d :: dims, offset =>
    if d < 0 then .error .negativeLength
    else
      let stride := dims.foldl (· * ·) 1
      let entry : Option Nat → Except Error Item
        | none => .ok .elided
        | some i => outline size dims (wrap64 (offset + i * stride))
      ((visible d.toNat).mapM entry).map .group

/-- What stands between the entries of an axis: those of the last axis are on one line. -/
def separator (axis rank : Nat) : String :=
  if axis + 1 = rank then ", " else ",\n" ++ "".pushn ' ' (axis + 1)

/-- What stands before the entries of an axis: rows start on a line of their own. -/
def opening (axis rank : Nat) : String := if axis + 1 ≠ rank ∧ axis = 0 then "\x7b\n " else "\x7b"

/-- The text of what is shown, for an array with `rank` axes of which `axis` are around it. -/
def Item.text (value : Nat → String) (rank : Nat) : (axis : Nat) → Item → String
  | _, .value index => value index
  | _, .elided => "..."
  | axis, .group items =>
    opening axis rank ++
      (separator axis rank).intercalate (items.attach.map fun ⟨item, _⟩ => item.text value rank (axis + 1)) ++
      "\x7d"

/-- The precisions that can be asked for. -/
def maxPrecision : Int := 1000000

/-- An element of an array as text. A precision that cannot be used is marked, and the fewest digits are
shown. -/
def elementText (flat : Flat) (precision : Int) (index : Nat) : String :=
  match flat with
  | ⟨.element t, data⟩ =>
    let x := data.getD index t.zero
    if 0 ≤ precision ∧ precision ≤ maxPrecision then t.elementText (some precision.toNat) x
    else (if t.isFloat then "%!(BADPREC)" else "") ++ t.elementText none x
  | ⟨.inert _, _⟩ => ""

/-- The summary of an array. -/
def text (shape : Shape) (flat : Flat) (precision : Int) : Except Error String :=
  let type := String.join (shape.dims.map fun d => s!"[{d}]") ++ flat.type.scalarName
  let value := elementText flat precision
  if shape.dims.isEmpty then .ok (type ++ "(" ++ value 0 ++ ")")
  else (outline flat.data.size shape.dims 0).map fun item => type ++ item.text value shape.rank 0

end LazyTensor.Summary
