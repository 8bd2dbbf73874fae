import LazyTensor.Element.Flat
import LazyTensor.Kernel.Range

/-!
# Kernels that fill, count and convert

Each of these computes every element of the output from its index.
-/

namespace LazyTensor.Kernel

/-- Element number `i` of `start, start + step, ...`; product and sum are rounded to double precision. -/
def arangeValue (start step : Double) (i : Nat) : Double := start.add ((FloatWord.ofInt i).mul step)

/-- The element of type `t` for a number of double precision. -/
def ofDouble (t : ElementType) (x : Double) : t.Elem := t.ofScalar (.double x)

/-- An element of one type as an element of another. -/
def castElement (s t : ElementType) (x : s.Elem) : t.Elem := t.ofScalar (s.toScalar x)

end LazyTensor.Kernel
