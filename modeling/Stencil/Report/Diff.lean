import Stencil.Diff.Listing
import Stencil.Report.Style

/-!
# Showing the changes of a file

A heading with the path, and below it the changes line by line.
-/

namespace Stencil.Report

/-- A number at least four characters wide. -/
def lineNumber (number : Nat) : Bytes :=
  let digits := Bytes.ofNat number
  List.replicate (4 - digits.length) (byte ' ') ++ digits

/-- A numbered line. -/
def numberedLine (color : Bool) (number : Nat) (text : Bytes) : Bytes :=
  Style.line.paint color (lineNumber number ++ bytes " | ") ++ text ++ [byte '\n']

/-- One line of the changes. -/
def changeLine (color : Bool) : Diff.Entry → Bytes
  | .gap => Style.line.paint color (bytes "...") ++ [byte '\n']
  | .kept number line => numberedLine color number (byte ' ' :: line)
  | .removed number line =>
      numberedLine color number (Style.removed.paint color (byte '-' :: line))
  | .added number line =>
      numberedLine color number (Style.added.paint color (byte '+' :: line))

/-- The heading for a path. -/
def diffHeading (color : Bool) (path : Bytes) : Bytes :=
  Style.error.paint color (bytes "--- ") ++ Style.file.paint color path ++ byte '\n' ::
    Style.error.paint color (bytes "+++ ") ++ Style.file.paint color path ++ [byte '\n']

/-- The changes of a file; nothing when it has not changed. -/
def diff (color : Bool) (path old new : Bytes) (around : Int) : Bytes :=
  if old = new then []
  else diffHeading color path ++ (Diff.changes old new around).flatMap (changeLine color)

end Stencil.Report
