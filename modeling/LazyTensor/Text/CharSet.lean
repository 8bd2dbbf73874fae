/-!
# Sets of characters

A character set is a list of closed code point ranges. The classes of characters that the library
distinguishes (white space, decimal digits, printable characters) are values of this type.
-/

namespace LazyTensor.Text

/-- A set of characters, given by closed ranges of code points. -/
structure CharSet where
  ranges : List (Nat × Nat)

namespace CharSet

/-- `s.contains c` says whether the code point of `c` lies in one of the ranges. -/
def contains (s : CharSet) (c : Char) : Bool :=
  s.ranges.any fun (lo, hi) => lo ≤ c.toNat && c.toNat ≤ hi

/-- A character is in the set exactly if some range holds its code point. -/
theorem contains_iff {s : CharSet} {c : Char} :
    s.contains c = true ↔ ∃ r ∈ s.ranges, r.1 ≤ c.toNat ∧ c.toNat ≤ r.2 := by
  simp [contains]

end CharSet

end LazyTensor.Text
