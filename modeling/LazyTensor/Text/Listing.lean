/-!
# Listings

The texts of lists of values.
-/

namespace LazyTensor.Text

/-- Items between brackets, divided by blanks: `[1 2 3]`. -/
def listing (items : List String) : String := "[" ++ " ".intercalate items ++ "]"

def integers (ns : List Int) : String := listing (ns.map toString)

end LazyTensor.Text
