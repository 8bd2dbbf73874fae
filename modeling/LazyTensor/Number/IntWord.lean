import LazyTensor.Number.Format

/-!
# Integer words

The value of a word is read by the signedness of its format, and every operation gives the word of
the exact result modulo `2 ^ width`.
-/

namespace LazyTensor

namespace IntWord

variable {f : IntFormat}

def value (x : IntWord f) : Int := if f.signed then x.bits.toInt else x.bits.toNat

/-- The word of an integer modulo `2 ^ width`. -/
def ofInt (n : Int) : IntWord f := ⟨BitVec.ofInt f.width n⟩

def zero : IntWord f := ⟨0⟩

def neg (x : IntWord f) : IntWord f := ofInt (-x.value)
def add (x y : IntWord f) : IntWord f := ofInt (x.value + y.value)
def sub (x y : IntWord f) : IntWord f := ofInt (x.value - y.value)
def mul (x y : IntWord f) : IntWord f := ofInt (x.value * y.value)

/-- The quotient truncated toward zero; there is none by zero. -/
def div? (x y : IntWord f) : Option (IntWord f) :=
  if y.value = 0 then none else some (ofInt (x.value.tdiv y.value))

def max (x y : IntWord f) : IntWord f := if x.value < y.value then y else x
def min (x y : IntWord f) : IntWord f := if y.value < x.value then y else x

/-- The word of another format with this value modulo `2 ^ width`. -/
def convert {g : IntFormat} (x : IntWord f) : IntWord g := ofInt x.value

end IntWord

/-- A signed 64-bit reading of an integer: lengths and sizes are kept in such words. -/
def wrap64 (n : Int) : Int := n.bmod (pow2 64)

end LazyTensor
