import Stencil.Symbols
import Stencil.Text.Slice

/-!
# Pattern tokens

A pattern is a sequence of literals, white space, variables, blocks and block
sequences.  White space is the only token that is not significant: it neither
captures nor begins a match on its own.

The tokens after a token decide two things about it: where a variable has to
stop, and whether white space may be missing.  `link` records both in every
token in one backward pass.
-/

namespace Stencil

/-- A named reference: its name and whether it may match nothing. -/
structure Reference where
  name : Slice
  optional : Bool
  deriving DecidableEq

/-- The delimiters of a block.  The groups are those written in the pattern; an
absent or empty group leaves the default in force. -/
structure Delimiters where
  opener : Bytes
  closer : Bytes
  openerGroup : Option Slice
  closerGroup : Option Slice
  deriving DecidableEq

/-- What a token asks for. -/
inductive Element where
  /-- The token's own text. -/
  | literal
  /-- A run of white space. -/
  | space
  /-- A word, bound to a name. -/
  | variable (reference : Reference)
  /-- A balanced block, its inside bound to a name. -/
  | block (reference : Reference) (delimiters : Delimiters)
  /-- A run of blocks, bound to a name as a whole. -/
  | blocks (reference : Reference) (delimiters : Delimiters)
  deriving DecidableEq

/-- What the tokens after a token say about it. -/
structure Lookahead where
  /-- The index of the nearest later significant token. -/
  next : Option Nat := none
  /-- Every later significant token is optional. -/
  allOptional : Bool := true
  deriving DecidableEq

/-- One token of a pattern. -/
structure Token where
  /-- The source text of the token. -/
  text : Slice
  element : Element
  ahead : Lookahead := {}
  deriving DecidableEq

namespace Token

/-- White space separates tokens and is not significant. -/
def isSpace (token : Token) : Bool :=
  token.element matches .space

/-- The reference of a capturing token. -/
def reference? (token : Token) : Option Reference :=
  match token.element with
  | .literal | .space => none
  | .variable reference => some reference
  | .block reference _ | .blocks reference _ => some reference

/-- The delimiters of a block or a block sequence. -/
def delimiters? (token : Token) : Option Delimiters :=
  match token.element with
  | .block _ delimiters | .blocks _ delimiters => some delimiters
  | _ => none

/-- Whether the token may match nothing.  Literals and white space carry no
such mark. -/
def optional (token : Token) : Bool :=
  token.reference?.any (·.optional)

/-- The text that shows that a token begins.  Only literals and blocks can be
recognised without consuming input. -/
def opening? (token : Token) : Option Bytes :=
  match token.element with
  | .literal => some token.text.text
  | .block _ delimiters | .blocks _ delimiters => some delimiters.opener
  | _ => none

/-- The first significant token of a list. -/
def firstSignificant? (tokens : List Token) : Option Token :=
  tokens.find? fun token => !token.isSpace

/-- Every significant token of a list is optional. -/
def allOptional (tokens : List Token) : Bool :=
  tokens.all fun token => token.isSpace || token.optional

/-- Records the look-ahead of every token, the first of which has the given
index.  The second part of the result is the look-ahead of a token in front of
them. -/
def linkFrom (index : Nat) : List Token → List Token × Lookahead
  | [] => ([], {})
  | token :: tokens =>
      let (linked, ahead) := linkFrom (index + 1) tokens
      ({ token with ahead := ahead } :: linked,
        if token.isSpace then ahead
        else ⟨some index, ahead.allOptional && token.optional⟩)

/-- Records the look-ahead of every token of a pattern. -/
def link (tokens : List Token) : List Token :=
  (linkFrom 0 tokens).1

end Token

end Stencil
