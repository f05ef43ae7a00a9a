import Stencil.Text.Bytes

/-!
# Slices

A slice is a stretch of a larger text together with the offset at which it
begins.  Tokens are slices of a pattern and captures are slices of an input.
Because a slice holds its text, resolving one never reads outside the larger
text; `Slice.Of` says that it really lies there.
-/

namespace Stencil

/-- A stretch of text and the offset at which it begins. -/
structure Slice where
  start : Nat
  text : Bytes
  deriving DecidableEq, Inhabited

namespace Slice

/-- The number of bytes covered. -/
def length (slice : Slice) : Nat :=
  slice.text.length

/-- The offset just past the slice. -/
def stop (slice : Slice) : Nat :=
  slice.start + slice.length

/-- The slice lies in `text` at the offset it names. -/
def Of (slice : Slice) (text : Bytes) : Prop :=
  slice.text <+: text.drop slice.start

end Slice

/-- A position in a text: its offset and what follows it. -/
structure Cursor where
  offset : Nat
  rest : Bytes
  deriving DecidableEq

namespace Cursor

/-- The start of a text. -/
def start (text : Bytes) : Cursor :=
  ⟨0, text⟩

/-- The position `offset` bytes into a text. -/
def inside (text : Bytes) (offset : Nat) : Cursor :=
  ⟨offset, text.drop offset⟩

/-- Moves past `n` bytes. -/
def advance (cursor : Cursor) (n : Nat) : Cursor :=
  ⟨cursor.offset + n, cursor.rest.drop n⟩

/-- Moves to `rest`, a remainder of what follows the cursor. -/
def moveTo (cursor : Cursor) (rest : Bytes) : Cursor :=
  ⟨cursor.offset + (cursor.rest.length - rest.length), rest⟩

/-- Moves past the white space that follows. -/
def skipSpace (cursor : Cursor) : Cursor :=
  ⟨cursor.offset + (cursor.rest.takeWhile Bytes.isSpace).length,
    cursor.rest.dropWhile Bytes.isSpace⟩

/-- The slice from the cursor to `rest`, a remainder of what follows it. -/
def sliceTo (cursor : Cursor) (rest : Bytes) : Slice :=
  ⟨cursor.offset, cursor.rest.take (cursor.rest.length - rest.length)⟩

end Cursor

end Stencil
