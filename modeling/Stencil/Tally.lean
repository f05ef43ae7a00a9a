import Stencil.Text.Bytes

/-!
# Tallies

A tally counts by label.  Its entries stand in the byte order of their labels,
one for each label counted so far.
-/

namespace Stencil

/-- Counts by label, sorted by label. -/
abbrev Tally := List (Bytes × Int)

namespace Tally

/-- Adds `n` to the count of a label. -/
def add (label : Bytes) (n : Int) : Tally → Tally
  | [] => [(label, n)]
  | (other, m) :: tally =>
      if label = other then (other, m + n) :: tally
      else if label < other then (label, n) :: (other, m) :: tally
      else (other, m) :: add label n tally

/-- The count of a label, zero when it has none. -/
def count (tally : Tally) (label : Bytes) : Int :=
  (tally.lookup label).getD 0

/-- Adds every count of a tally to another. -/
def merge (tally other : Tally) : Tally :=
  other.foldl (fun sum (label, n) => add label n sum) tally

/-- Counts each label once. -/
def ofLabels (labels : List Bytes) : Tally :=
  labels.foldl (fun tally label => add label 1 tally) []

end Tally

end Stencil
