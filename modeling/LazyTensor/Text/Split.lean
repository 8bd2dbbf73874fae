import LazyTensor.Text.Blank

/-!
# Splitting text

A text is split at every separator, or cut once at the first one.
-/

namespace LazyTensor.Text

/-- The parts between the separators; `n` separators make `n + 1` parts. -/
def splitChars (sep : Char) : List Char → List (List Char)
  | [] => [[]]
  | c :: cs =>
    if c = sep then [] :: splitChars sep cs
    else match splitChars sep cs with
      | [] => [[c]]
      | part :: parts => (c :: part) :: parts

/-- The parts of a text between the separators. -/
def split (sep : Char) (s : String) : List String := (splitChars sep s.toList).map String.ofList

/-- The text before the first separator, and the text after it if there is one. -/
def cutChars (sep : Char) : List Char → List Char × Option (List Char)
  | [] => ([], none)
  | c :: cs =>
    if c = sep then ([], some cs)
    else
      let (before, after) := cutChars sep cs
      (c :: before, after)

/-- The text before the first separator, and the text after it if there is one. -/
def cut (sep : Char) (s : String) : String × Option String :=
  let (before, after) := cutChars sep s.toList
  (String.ofList before, after.map String.ofList)

/-- The parts of a text between the separators, without white space at their ends and without the
parts that are then empty. -/
def trimmedParts (sep : Char) (s : String) : List String :=
  ((split sep s).map trim).filter (· ≠ "")

end LazyTensor.Text
