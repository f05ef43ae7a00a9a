import Stencil.Diff.Script

/-!
# Listing the changes of a text

The changed lines of an edit script with some kept lines around them.  Removed
lines have their number in the old text, added and kept lines theirs in the new
one.  A mark stands where lines in front of a change are left out.
-/

namespace Stencil.Diff

/-- One line of a listing. -/
inductive Entry where
  /-- Kept lines are left out here. -/
  | gap
  | kept (number : Nat) (line : Bytes)
  | removed (number : Nat) (line : Bytes)
  | added (number : Nat) (line : Bytes)
  deriving DecidableEq

/-- The lines of a text.  A line break at its end ends the last line. -/
def linesOf (text : Bytes) : List Bytes :=
  let lines := Bytes.splitOn (byte '\n') text
  if text.isEmpty then []
  else if text.getLast? = some (byte '\n') then lines.dropLast
  else lines

/-- Makes an entry of every line; `number` lines stand in front of them. -/
def numbered (entry : Nat → Bytes → Entry) (number : Nat) (lines : List Bytes) : List Entry :=
  lines.mapIdx fun i line => entry (number + i + 1) line

/-- The end of a stretch of kept lines, in front of the first change. -/
def leading (around number : Nat) (lines : List Bytes) : List Entry :=
  let hidden := lines.length - around
  (if hidden = 0 then [] else [.gap]) ++ numbered .kept (number + hidden) (lines.drop hidden)

/-- A stretch of kept lines between two changes.  Its middle is left out where
something remains of it. -/
def between (around number : Nat) (lines : List Bytes) : List Entry :=
  if lines.length ≤ around + around then numbered .kept number lines
  else
    numbered .kept number (lines.take around) ++
      leading around (number + around) (lines.drop around)

/-- Lists pieces behind `old` lines of the old text and `new` lines of the new
one, in which there was a change. -/
def listAfterChange (around : Nat) : Nat → Nat → List Piece → List Entry
  | _, _, [] => []
  | _, new, [.kept lines] => numbered .kept new (lines.take around)
  | old, new, .kept lines :: pieces =>
      between around new lines ++
        listAfterChange around (old + lines.length) (new + lines.length) pieces
  | old, new, .changed removed added :: pieces =>
      numbered .removed old removed ++ numbered .added new added ++
        listAfterChange around (old + removed.length) (new + added.length) pieces

/-- Lists the pieces of a script.  Without a change there is nothing to list. -/
def listing (around : Nat) : List Piece → List Entry
  | [] | [.kept _] => []
  | .kept lines :: pieces =>
      leading around 0 lines ++ listAfterChange around lines.length lines.length pieces
  | pieces => listAfterChange around 0 0 pieces

/-- The changes from one text to another, with up to `around` kept lines on
each side. -/
def changes (old new : Bytes) (around : Int) : List Entry :=
  listing around.toNat (script (linesOf old) (linesOf new))

end Stencil.Diff
