import Stencil.Text.Bytes

/-!
# Coloured text

The parts of a report that stand out.  Without colours a styled text is the text
itself.
-/

namespace Stencil.Report

/-- What a part of a report is, which decides how it looks. -/
inductive Style where
  | error
  | file
  | line
  | added
  | removed
  | summary
  deriving DecidableEq

namespace Style

/-- The codes that switch a style on. -/
def on : Style → String
  | .error => "31;1"
  | .file => "36;1"
  | .line => "34;1"
  | .added => "32"
  | .removed => "31"
  | .summary => "33;1"

/-- The codes that switch a style off.  Bold styles need one more. -/
def off : Style → String
  | .added | .removed => "0"
  | _ => "0;22"

/-- The sequence that switches codes. -/
def sequence (codes : String) : Bytes :=
  bytes "\x1b[" ++ bytes codes ++ bytes "m"

/-- A text in a style. -/
def paint (style : Style) (color : Bool) (text : Bytes) : Bytes :=
  if color then sequence style.on ++ text ++ sequence style.off else text

end Style

end Stencil.Report
