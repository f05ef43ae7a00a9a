import Stencil.Text.Bytes

/-!
# Edit scripts

How one list of lines becomes another: lines that are kept, and lines that are
removed with those that are added in their place.  The longest run of lines
that both lists share is kept, the first such run if there are several, and what
lies on its two sides is treated in the same way.
-/

namespace Stencil.Diff

/-- A stretch of an edit script. -/
inductive Piece where
  | kept (lines : List Bytes)
  | changed (removed added : List Bytes)
  deriving DecidableEq

/-- A run of lines that two lists share: how many lines stand in front of it in
each, and how long it is. -/
structure Run where
  left : Nat := 0
  right : Nat := 0
  size : Nat := 0

/-- How many lines two lists share at their beginning. -/
def commonPrefix : List Bytes → List Bytes → Nat
  | x :: xs, y :: ys => if x = y then commonPrefix xs ys + 1 else 0
  | _, _ => 0

/-- The longer of a run and those that begin with the list `a`, behind `left`
lines; `b` stands behind `right` lines. -/
def longerFrom (a : List Bytes) (left right : Nat) (best : Run) : List Bytes → Run
  | [] => best
  | y :: b =>
      let size := commonPrefix a (y :: b)
      longerFrom a left (right + 1) (if best.size < size then ⟨left, right, size⟩ else best) b

/-- The longest of a run and those behind `left` lines of the first list. -/
def longestFrom (b : List Bytes) (left : Nat) (best : Run) : List Bytes → Run
  | [] => best
  | x :: a => longestFrom b (left + 1) (longerFrom (x :: a) left 0 best b) a

/-- The longest run that two lists share, of several the first in `a` and then
the first in `b`. -/
def longestRun (a b : List Bytes) : Run :=
  longestFrom b 0 {} a

/-- Removed and added lines; nothing when there are none. -/
def change (removed added : List Bytes) : List Piece :=
  if removed.isEmpty && added.isEmpty then [] else [.changed removed added]

/-- Splits at longest runs, as deep as the budget allows. -/
def split : Nat → List Bytes → List Bytes → List Piece
  | 0, a, b => change a b
  | budget + 1, a, b =>
      let run := longestRun a b
      if run.size = 0 then change a b
      else
        split budget (a.take run.left) (b.take run.right) ++
          .kept ((a.drop run.left).take run.size) ::
          split budget (a.drop (run.left + run.size)) (b.drop (run.right + run.size))

/-- Joins neighbouring stretches of kept lines. -/
def joinKept : List Piece → List Piece
  | .kept xs :: pieces =>
      match joinKept pieces with
      | .kept ys :: later => .kept (xs ++ ys) :: later
      | later => .kept xs :: later
  | piece :: pieces => piece :: joinKept pieces
  | [] => []

/-- The edit script from one list of lines to another. -/
def script (a b : List Bytes) : List Piece :=
  joinKept (split a.length a b)

/-- The lines a script starts from. -/
def before (pieces : List Piece) : List Bytes :=
  pieces.flatMap fun
    | .kept lines => lines
    | .changed removed _ => removed

/-- The lines a script leads to. -/
def after (pieces : List Piece) : List Bytes :=
  pieces.flatMap fun
    | .kept lines => lines
    | .changed _ added => added

end Stencil.Diff
