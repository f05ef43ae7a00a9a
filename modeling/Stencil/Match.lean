import Stencil.Block
import Stencil.Pattern.Compile
import Stencil.Text.Utf8

/-!
# Matching

A pattern is matched at one place of a text by one forward pass over its
tokens; a failing token fails the match.  Every token moves the cursor, may
add one capture, and tells whether it was an optional token that matched
nothing.  What a token does depends on the text after the cursor only, never
on the text before it.
-/

namespace Stencil

/-- A named value.  The parts are the insides of the blocks of a sequence. -/
structure Capture where
  name : Bytes
  value : Slice
  parts : Option (List Slice) := none
  deriving DecidableEq

/-- A successful match. -/
structure Match where
  /-- The matched text and where it begins. -/
  matched : Slice
  captures : List Capture
  /-- The text after the match. -/
  rest : Bytes
  deriving DecidableEq

namespace Match

def start (found : Match) : Nat :=
  found.matched.start

def stop (found : Match) : Nat :=
  found.matched.stop

/-- The first capture of a name. -/
def capture? (found : Match) (name : Bytes) : Option Capture :=
  found.captures.find? fun capture => capture.name == name

/-- The value of the first capture of a name. -/
def lookup? (found : Match) (name : Bytes) : Option Bytes :=
  (found.capture? name).map (·.value.text)

/-- The value of the first capture of a name; empty when there is none. -/
def value (found : Match) (name : Bytes) : Bytes :=
  (found.lookup? name).getD []

/-- The insides of the blocks captured under a name.  Any other capture is a
single part, unless it is empty. -/
def parts? (found : Match) (name : Bytes) : Option (List Bytes) :=
  match found.capture? name with
  | none => none
  | some capture =>
      match capture.parts with
      | some parts => some (parts.map (·.text))
      | none => if capture.value.text.isEmpty then none else some [capture.value.text]

end Match

/-- What one token made of the text at the cursor. -/
structure Step where
  cursor : Cursor
  capture : Option Capture
  /-- An optional token matched nothing just before the cursor. -/
  skipped : Bool

namespace Token

/-- The length of the word at the beginning of a text: it ends at white space
and where `stop` begins. -/
def wordLength (stop : Option Bytes) : Bytes → Nat
  | [] => 0
  | b :: text =>
      if Bytes.isSpace b || stop.any (·.isPrefixOf (b :: text)) then 0
      else wordLength stop text + 1

/-- Reads a run of blocks separated by optional white space.  The result is the
insides of the blocks and the position behind the last one.  A block that is
not closed ends the run; when `strict`, it fails it. -/
def blockRun (strict : Bool) (opener closer : Bytes) (cursor : Cursor) :
    Option (List Slice × Cursor) :=
  match found : Block.read? opener closer cursor.rest with
  | none => some ([], cursor)
  | some block =>
      have := Block.read?_length found
      let inner : Slice := ⟨cursor.offset + opener.length, block.inner⟩
      let behind := cursor.moveTo block.rest
      if block.closed then
        if opener.isPrefixOf behind.skipSpace.rest then
          (blockRun strict opener closer behind.skipSpace).map
            fun (inners, last) => (inner :: inners, last)
        else
          some ([inner], behind)
      else if strict then
        none
      else
        some ([inner], behind)
termination_by cursor.rest.length
decreasing_by
  have skipped := (List.dropWhile_suffix Bytes.isSpace (l := block.rest)).length_le
  simp_all [Cursor.skipSpace, Cursor.moveTo]
  omega

theorem blockRun_none {strict : Bool} {opener closer : Bytes} {cursor : Cursor}
    (absent : Block.read? opener closer cursor.rest = none) :
    blockRun strict opener closer cursor = some ([], cursor) := by
  rw [blockRun]
  split
  · rfl
  · next block present =>
      rw [absent] at present
      cases present

theorem blockRun_some {strict : Bool} {opener closer : Bytes} {cursor : Cursor} {block : Block}
    (found : Block.read? opener closer cursor.rest = some block) :
    blockRun strict opener closer cursor =
      if block.closed then
        if opener.isPrefixOf (cursor.moveTo block.rest).skipSpace.rest then
          (blockRun strict opener closer (cursor.moveTo block.rest).skipSpace).map
            fun (inners, last) =>
              (⟨cursor.offset + opener.length, block.inner⟩ :: inners, last)
        else
          some ([⟨cursor.offset + opener.length, block.inner⟩], cursor.moveTo block.rest)
      else if strict then
        none
      else
        some ([⟨cursor.offset + opener.length, block.inner⟩], cursor.moveTo block.rest) := by
  rw [blockRun]
  split
  · next absent =>
      rw [found] at absent
      cases absent
  · next other present =>
      rw [found] at present
      cases present
      rfl

/-- Matches one token at the cursor.

* `afterSpace`: the previous token is white space.
* `skipped`: the last significant token was optional and matched nothing.
* `later`: the tokens that follow. -/
def step? (strict afterSpace skipped : Bool) (later : List Token) (token : Token)
    (cursor : Cursor) : Option Step :=
  match token.element with
  | .space =>
      if cursor.rest.head?.any Bytes.isSpace then
        some ⟨cursor.skipSpace, none, skipped⟩
      else if allOptional later || skipped then
        some ⟨cursor, none, skipped⟩
      else
        none
  | .literal =>
      if token.text.text.isPrefixOf cursor.rest then
        some ⟨cursor.advance token.text.length, none, false⟩
      else
        none
  | .variable reference =>
      let start := if afterSpace then cursor else cursor.skipSpace
      let length := wordLength ((firstSignificant? later).bind opening?) start.rest
      if length = 0 && !reference.optional then
        none
      else
        some ⟨start.advance length,
          some { name := reference.name.text,
                 value := ⟨start.offset, start.rest.take length⟩ },
          length == 0⟩
  | .block reference delimiters =>
      match Block.read? delimiters.opener delimiters.closer cursor.rest with
      | none =>
          if reference.optional then
            some ⟨cursor,
              some { name := reference.name.text, value := ⟨cursor.offset, []⟩ }, true⟩
          else
            none
      | some block =>
          if block.closed || !strict then
            some ⟨cursor.moveTo block.rest,
              some { name := reference.name.text,
                     value := ⟨cursor.offset + delimiters.opener.length, block.inner⟩ },
              false⟩
          else
            none
  | .blocks reference delimiters =>
      match blockRun strict delimiters.opener delimiters.closer cursor with
      | none => none
      | some ([], _) =>
          if reference.optional then
            some ⟨cursor,
              some { name := reference.name.text, value := ⟨cursor.offset, []⟩ }, true⟩
          else
            none
      | some (inners, last) =>
          some ⟨last,
            some { name := reference.name.text,
                   value := cursor.sliceTo last.rest,
                   parts := some inners },
            false⟩

/-- Matches the tokens of a pattern one after the other.  The result is the
captures and the position behind the match. -/
def run? (strict : Bool) :
    (afterSpace skipped : Bool) → List Token → Cursor → Option (List Capture × Cursor)
  | _, _, [], cursor => some ([], cursor)
  | afterSpace, skipped, token :: later, cursor =>
      match step? strict afterSpace skipped later token cursor with
      | none => none
      | some step =>
          (run? strict token.isSpace step.skipped later step.cursor).map
            fun (captures, last) => (step.capture.toList ++ captures, last)

end Token

namespace Pattern

/-- Matches the pattern at the cursor. -/
def matchFrom? (pattern : Pattern) (strict : Bool) (cursor : Cursor) : Option Match :=
  (Token.run? strict false false pattern.tokens cursor).map fun (captures, last) =>
    { matched := cursor.sliceTo last.rest, captures, rest := last.rest }

/-- Matches the pattern at an offset of a text.  There is no match at an offset
outside the text. -/
def matchAt? (pattern : Pattern) (strict : Bool) (text : Bytes) (offset : Int) :
    Option Match :=
  match offset with
  | .negSucc _ => none
  | .ofNat n =>
      if n ≤ text.length then pattern.matchFrom? strict (Cursor.inside text n) else none

/-- A step over one character leaves less text. -/
theorem length_advance_width_lt {cursor : Cursor} (remaining : cursor.rest ≠ []) :
    (cursor.advance (Utf8.width cursor.rest)).rest.length < cursor.rest.length := by
  have wide := Utf8.width_pos cursor.rest
  have long := List.length_pos_iff.mpr remaining
  simp only [Cursor.advance, List.length_drop]
  omega

/-- The matches from the cursor on, leftmost first and not overlapping.  After a
match that consumed nothing the search goes on one character later. -/
def findFrom (pattern : Pattern) (cursor : Cursor) : List Match :=
  if cursor.rest = [] then
    []
  else
    match pattern.matchFrom? false cursor with
    | none => findFrom pattern (cursor.advance (Utf8.width cursor.rest))
    | some found =>
        if found.rest.length < cursor.rest.length then
          found :: findFrom pattern (cursor.moveTo found.rest)
        else
          found :: findFrom pattern (cursor.advance (Utf8.width cursor.rest))
termination_by cursor.rest.length
decreasing_by
  · exact length_advance_width_lt (by assumption)
  · assumption
  · exact length_advance_width_lt (by assumption)

/-- The leftmost non-overlapping matches in a text. -/
def findAll (pattern : Pattern) (text : Bytes) : List Match :=
  pattern.findFrom (Cursor.start text)

end Pattern

end Stencil
