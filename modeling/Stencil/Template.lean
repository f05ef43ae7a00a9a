import Stencil.Match

/-!
# Templates

A replacement template is plain text with references: a sigil and the name
behind it.  How a template splits into text and references does not depend on
any match, so inserted values are never read again.
-/

namespace Stencil.Template

/-- One piece of a template. -/
inductive Piece where
  | text (text : Bytes)
  | reference (name : Bytes)
  deriving DecidableEq

/-- Cuts a template into pieces: text up to the next sigil, then the longest
name behind it. -/
def pieces (sigil : Bytes) (template : Bytes) : List Piece :=
  match template with
  | [] => []
  | b :: tail =>
      if sigil.isPrefixOf (b :: tail) then
        let behind := tail.drop (sigil.length - 1)
        .reference (behind.takeWhile Bytes.isIdent) ::
          pieces sigil (behind.dropWhile Bytes.isIdent)
      else
        match pieces sigil tail with
        | .text text :: later => .text (b :: text) :: later
        | later => .text [b] :: later
termination_by template.length
decreasing_by
  · have shorter := (List.dropWhile_suffix Bytes.isIdent
      (l := tail.drop (sigil.length - 1))).length_le
    simp at shorter
    simp_wf
    omega
  · simp_wf

/-- What a piece becomes: text stays, and a reference becomes the value of the
first capture of its name, or stays when there is none. -/
def Piece.expand (sigil : Bytes) (found : Match) : Piece → Bytes
  | .text plain => plain
  | .reference name => (found.lookup? name).getD (sigil ++ name)

/-- Expands a template against the captures of a match.  Without a sigil there
are no references. -/
def expand (sigil template : Bytes) (found : Match) : Bytes :=
  if sigil.isEmpty then template
  else (pieces sigil template).flatMap (·.expand sigil found)

end Stencil.Template
