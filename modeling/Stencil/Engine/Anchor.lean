import Stencil.Pattern.Compile

/-!
# Anchors

An anchor is a text every match of a pattern begins with.  When every pattern
has one, the places without an anchor can be passed over.  The search first
asks for the occurrence that ends first, which need not be the one that begins
first; a short look back from its end finds any occurrence that begins earlier.
-/

namespace Stencil

/-- The text every match of the pattern begins with, if its first token shows
one. -/
def Pattern.anchor? (pattern : Pattern) : Option Bytes :=
  match pattern.tokens with
  | [] => none
  | token :: _ => if token.optional then none else token.opening?

namespace Anchor

/-- Where an anchor occurs. -/
structure Occurrence where
  start : Nat
  stop : Nat
  deriving DecidableEq

/-- Some anchor begins at the beginning of the text. -/
def beginsAt (anchors : List Bytes) (text : Bytes) : Bool :=
  anchors.any (·.isPrefixOf text)

/-- The first anchor that ends at `stop`, given the bytes before `stop` in
reverse. -/
def endingAt? (anchors : List Bytes) (stop : Nat) (before : Bytes) : Option Occurrence :=
  (anchors.find? fun anchor => anchor.reverse.isPrefixOf before).map
    fun anchor => ⟨stop - anchor.length, stop⟩

/-- Searches for the first end of an anchor, given the bytes already passed in
reverse. -/
def firstEndFrom (anchors : List Bytes) (passed : Bytes) (stop : Nat) :
    Bytes → Option Occurrence
  | [] => endingAt? anchors stop passed
  | b :: text =>
      match endingAt? anchors stop passed with
      | some occurrence => some occurrence
      | none => firstEndFrom anchors (b :: passed) (stop + 1) text

/-- A way to search a text for anchors from an offset on. -/
abbrev Search := List Bytes → Bytes → Nat → Option Occurrence

/-- The occurrence that ends first, among those that begin at or after an
offset. -/
def firstEnd? : Search := fun anchors text offset =>
  firstEndFrom anchors [] offset (text.drop offset)

/-- The first offset below `limit` at which an anchor begins; `limit` when there
is none. -/
def firstStart (anchors : List Bytes) (text : Bytes) (offset limit : Nat) : Nat :=
  if offset < limit then
    if beginsAt anchors (text.drop offset) then offset
    else firstStart anchors text (offset + 1) limit
  else
    limit
termination_by limit - offset

/-- The length of the longest anchor. -/
def longest (anchors : List Bytes) : Nat :=
  anchors.foldl (fun n anchor => max n anchor.length) 0

/-- The least offset, from the given one on, at which an anchor begins.  The
search need only find an occurrence that ends first: whatever begins before that
occurrence ends no earlier, so it begins within the length of the longest anchor
before that end. -/
def next? (find : Search) (anchors : List Bytes) (text : Bytes) (offset : Nat) :
    Option Nat :=
  if text.length ≤ offset then
    none
  else
    (find anchors text offset).map fun occurrence =>
      firstStart anchors text (max offset (occurrence.stop - longest anchors))
        occurrence.start

end Anchor

end Stencil
