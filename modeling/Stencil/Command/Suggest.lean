import Stencil.Text.Bytes

/-!
# Near misses

How far two words are apart, and which of the known words are close enough to
be what was meant.
-/

namespace Stencil.Command

/-- Continues a row of distances.  The entries of the row above belong to the same
places, one to the left first. -/
def distancesFrom (letter : UInt8) (left : Nat) : Bytes → List Nat → List Nat
  | other :: word, corner :: above :: row =>
      let distance :=
        if letter == other then corner else 1 + min left (min above corner)
      distance :: distancesFrom letter distance word (above :: row)
  | _, _ => []

/-- The distances of one more letter from the beginnings of a word. -/
def nextDistances (word : Bytes) (row : List Nat) (letter : UInt8) : List Nat :=
  let first := row.headD 0 + 1
  first :: distancesFrom letter first word row

/-- The least number of letters to insert, delete or replace to make one word
from another. -/
def distance (left right : Bytes) : Nat :=
  (left.foldl (nextDistances right) (List.range (right.length + 1))).getLastD 0

/-- The known words that are close to a word, or begin with it, in any case. -/
def suggestions (known : List Bytes) (word : Bytes) : List Bytes :=
  known.filter fun candidate =>
    distance word.toLower candidate.toLower ≤ 2 || word.toLower.isPrefixOf candidate.toLower

end Stencil.Command
