/-!
# Parts of sequences
-/

namespace LazyTensor

/-- Whether `start` and `stop` bound a part of `size` elements. -/
def isPart (start stop : Int) (size : Nat) : Bool := 0 ≤ start && start ≤ stop && stop ≤ size

end LazyTensor
