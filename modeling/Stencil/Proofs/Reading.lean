import Stencil.Match
import Stencil.Proofs.Block
import Stencil.Proofs.Cursor

/-!
# Readings of a text

A reading of a text by a pattern gives every token a share of the text: the
stretch it takes and what it captures.  Which stretch a token may take is said
here without any cursor or look-ahead record: by the bytes of the stretch, the
tokens that follow, and the shares before it.
-/

namespace Stencil

/-- A token, the stretch of the text it takes, and what it captures. -/
structure Share where
  token : Token
  start : Nat
  stop : Nat
  capture : Option Capture

/-- The nearest significant one of the later tokens begins at a place: its
literal text or its opener stands there. -/
def NextBegins (text : Bytes) (later : List Token) (place : Nat) : Prop :=
  ∃ spaces next rest opening,
    later = spaces ++ next :: rest ∧ (∀ token ∈ spaces, token.isSpace = true) ∧
      next.isSpace = false ∧ next.opening? = some opening ∧ opening <+: text.drop place

/-- A word: no white space and no beginning of the next token inside it, and it
goes as far as that allows. -/
structure Word (text : Bytes) (later : List Token) (start stop : Nat) : Prop where
  ordered : start ≤ stop
  inside : stop ≤ text.length
  solid : ∀ place, start ≤ place → place < stop → ∀ b ∈ text[place]?, Bytes.isSpace b = false
  own : ∀ place, start ≤ place → place < stop → ¬ NextBegins text later place
  ended : stop = text.length ∨ (∃ b ∈ text[stop]?, Bytes.isSpace b = true) ∨
    NextBegins text later stop

/-- The block that begins at `start` and ends at `stop`. -/
structure BlockAt (text : Bytes) (delimiters : Delimiters) (start : Nat) (block : Block)
    (stop : Nat) : Prop where
  read : Block.read? delimiters.opener delimiters.closer (text.drop start) = some block
  ordered : start ≤ stop
  inside : stop ≤ text.length
  rest : block.rest = text.drop stop

/-- The inside of a block with these delimiters that begins at `start`. -/
def Delimiters.inner (delimiters : Delimiters) (start : Nat) (block : Block) : Slice :=
  ⟨start + delimiters.opener.length, block.inner⟩

/-- A run of blocks with only white space between them, up to where no further
block follows.  Only the last block may lack its closer, and not when `strict`. -/
inductive BlockRun (strict : Bool) (text : Bytes) (delimiters : Delimiters) :
    Nat → List Slice → Nat → Prop where
  | last {start stop : Nat} {block : Block} :
      BlockAt text delimiters start block stop →
      (strict = true → block.closed = true) →
      (block.closed = true → ∀ next, SpaceRun text stop next →
        ¬ delimiters.opener <+: text.drop next) →
      BlockRun strict text delimiters start [delimiters.inner start block] stop
  | more {start behind next stop : Nat} {block : Block} {inners : List Slice} :
      BlockAt text delimiters start block behind →
      block.closed = true →
      SpaceRun text behind next →
      delimiters.opener <+: text.drop next →
      BlockRun strict text delimiters next inners stop →
      BlockRun strict text delimiters start
        (delimiters.inner start block :: inners) stop

namespace Share

/-- An optional token captured nothing: an empty variable, or a block or a
sequence whose opener is absent. -/
def CapturedNothing (text : Bytes) (share : Share) : Prop :=
  share.token.optional = true ∧
    match share.token.element with
    | .literal | .space => False
    | .variable _ => ∃ capture ∈ share.capture, capture.value.text = []
    | .block _ delimiters | .blocks _ delimiters =>
        ¬ delimiters.opener <+: text.drop share.start

/-- The nearest significant one of the earlier tokens captured nothing. -/
def AfterNothing (text : Bytes) (earlier : List Share) : Prop :=
  ∃ before share spaces,
    earlier = before ++ share :: spaces ∧
      (∀ space ∈ spaces, space.token.isSpace = true) ∧
      share.token.isSpace = false ∧ share.CapturedNothing text

/-- The last of the earlier tokens is white space. -/
def endsInSpace (earlier : List Share) : Bool :=
  earlier.getLast?.any fun share => share.token.isSpace

/-- The optional token's opener is absent, so that it takes and captures
nothing. -/
def Absent (text : Bytes) (share : Share) (reference : Reference)
    (delimiters : Delimiters) : Prop :=
  reference.optional = true ∧ ¬ delimiters.opener <+: text.drop share.start ∧
    share.stop = share.start ∧
    share.capture = some { name := reference.name.text, value := ⟨share.start, []⟩ }

/-- A token may take its share, given the shares before it and the tokens that
follow. -/
def Fits (strict : Bool) (text : Bytes) (earlier : List Share) (share : Share)
    (later : List Token) : Prop :=
  match share.token.element with
  | .literal =>
      text.between share.start share.stop = share.token.text.text ∧ share.capture = none
  | .space =>
      SpaceRun text share.start share.stop ∧
        (share.start = share.stop →
          (∀ token ∈ later, token.isSpace = false → token.optional = true) ∨
            AfterNothing text earlier) ∧
        share.capture = none
  | .variable reference =>
      -- white space in front of the word belongs to the share, unless a token
      -- of its own has taken it
      ∃ first,
        (if endsInSpace earlier then first = share.start
          else SpaceRun text share.start first) ∧
        Word text later first share.stop ∧
        (first = share.stop → reference.optional = true) ∧
        share.capture = some
          { name := reference.name.text, value := ⟨first, text.between first share.stop⟩ }
  | .block reference delimiters =>
      (∃ block, BlockAt text delimiters share.start block share.stop ∧
        (strict = true → block.closed = true) ∧
        share.capture = some
          { name := reference.name.text,
            value := delimiters.inner share.start block }) ∨
        Absent text share reference delimiters
  | .blocks reference delimiters =>
      (∃ inners, BlockRun strict text delimiters share.start inners share.stop ∧
        share.capture = some
          { name := reference.name.text,
            value := ⟨share.start, text.between share.start share.stop⟩,
            parts := some inners }) ∨
        Absent text share reference delimiters

/-- The shares take the text from one offset to another, one after the other. -/
inductive Consecutive : Nat → List Share → Nat → Prop where
  | nil {place : Nat} : Consecutive place [] place
  | cons {share : Share} {shares : List Share} {stop : Nat} :
      share.start ≤ share.stop → Consecutive share.stop shares stop →
      Consecutive share.start (share :: shares) stop

end Share

/-- The shares are a reading of the text from `start` to `stop` by the tokens,
behind the `earlier` shares. -/
structure Reading (strict : Bool) (text : Bytes) (earlier : List Share)
    (tokens : List Token) (start : Nat) (shares : List Share) (stop : Nat) : Prop where
  tokens : shares.map Share.token = tokens
  consecutive : Share.Consecutive start shares stop
  inside : stop ≤ text.length
  fits : ∀ before share after, shares = before ++ share :: after →
    share.Fits strict text (earlier ++ before) (after.map Share.token)

end Stencil
