import Stencil.Engine.Basic
import Stencil.Text.Blank

/-!
# Declarations inside a text

A text may declare the rules that apply to it: a keyword, a block with a pattern
and a block with a replacement.  Declarations are removed and their rules are
applied to what remains.  Replacements may declare further rules, so collecting
and applying repeats until nothing is declared or a number of passes is used up.

`pieces` cuts a text into declarations and the text between them; the rules and
the remaining text are read off the pieces.
-/

namespace Stencil

/-- A declaration as it stands in a text. -/
structure Declaration where
  /-- All of its text. -/
  text : Bytes
  /-- The inside of the first block. -/
  pattern : Bytes
  /-- The inside of the second block, if there is one. -/
  replacement : Option Bytes
  deriving DecidableEq

namespace Declaration

/-- A stretch of a text: a declaration, or text to keep. -/
inductive Piece where
  | kept (text : Bytes)
  | declared (declaration : Declaration)

/-- The inside of the block a text begins with and the text after it.  A
missing block is empty and takes nothing. -/
def blockOrNothing (symbols : Symbols) (text : Bytes) : Bytes × Bytes :=
  match Block.read? symbols.opener symbols.closer text with
  | some block => (block.inner, block.rest)
  | none => ([], text)

/-- Reads a declaration at a place where the keyword begins: the blocks, and the
text after them.  It needs an opener behind the keyword; the second block needs
one behind the first block. -/
def blocks? (keyword : Bytes) (symbols : Symbols) (text : Bytes) :
    Option (Bytes × Option Bytes × Bytes) :=
  let first := (text.drop keyword.length).dropWhile Bytes.isSpace
  if symbols.opener.isPrefixOf first then
    let (pattern, rest) := blockOrNothing symbols first
    let second := rest.dropWhile Bytes.isSpace
    if !second.isEmpty && symbols.opener.isPrefixOf second then
      let (replacement, rest) := blockOrNothing symbols second
      some (pattern, some replacement, rest)
    else
      some (pattern, none, rest)
  else
    none

/-- Cuts a text into pieces.  `before` is the byte in front of the text: a
keyword behind a name byte is part of a longer word. -/
def piecesFrom (keyword : Bytes) (symbols : Symbols) (before : Option UInt8) (text : Bytes) :
    List Piece :=
  if text = [] then
    []
  else
    match split : Bytes.splitAtFirst keyword text with
    | none => [.kept text]
    | some (gap, found) =>
        have := congrArg List.length (Bytes.splitAtFirst_eq_some split).1
        let previous := gap.getLast?.or before
        match if previous.any Bytes.isIdent then none else blocks? keyword symbols found with
        | none =>
            .kept (gap ++ found.take 1) ::
              piecesFrom keyword symbols found.head? found.tail
        | some (pattern, replacement, rest) =>
            let own := found.take (found.length - rest.length)
            if rest.length < text.length then
              .kept gap :: .declared ⟨own, pattern, replacement⟩ ::
                piecesFrom keyword symbols (own.getLast?.or previous) rest
            else
              [.kept text]
termination_by text.length
decreasing_by
  · have remaining : 0 < text.length := List.length_pos_iff.mpr (by assumption)
    simp at this ⊢
    omega
  · assumption

/-- Cuts a text into pieces. -/
def pieces (keyword : Bytes) (symbols : Symbols) (text : Bytes) : List Piece :=
  piecesFrom keyword symbols none text

/-- The pattern and replacement a declaration stands for.  A declaration
without a replacement or with a blank pattern stands for nothing. -/
def meaning? (declaration : Declaration) : Option (Bytes × Bytes) :=
  match declaration.replacement with
  | none => none
  | some replacement =>
      if declaration.pattern.trim.isEmpty then none
      else some (declaration.pattern.trim, replacement.trim)

/-- The rules declared by a list of pieces, numbered in order. -/
def rulesOf (pieces : List Piece) : List Rule :=
  let meanings := pieces.filterMap fun
    | .kept _ => none
    | .declared declaration => declaration.meaning?
  meanings.mapIdx fun i (pattern, replacement) =>
    { name := bytes "inline#" ++ Bytes.ofNat i, pattern, replacement }

/-- The text that remains without the declarations. -/
def restOf (pieces : List Piece) : Bytes :=
  pieces.flatMap fun
    | .kept text => text
    | .declared _ => []

/-- The rules a text declares, and the text without the declarations. -/
def collect (keyword : Bytes) (symbols : Symbols) (text : Bytes) : List Rule × Bytes :=
  let pieces := pieces keyword symbols text
  (rulesOf pieces, restOf pieces)

end Declaration

/-- How declared rules are collected and applied. -/
structure InlineOptions where
  options : Options := {}
  /-- The word that begins a declaration; the standard one when empty. -/
  keyword : Bytes := []
  /-- The number of passes; the standard one when not positive. -/
  passes : Int := 0

namespace InlineOptions

def standardKeyword : Bytes :=
  bytes "pattern"

def standardPasses : Nat :=
  512

/-- The options with standard values where none are chosen. -/
def normalized (inline : InlineOptions) : InlineOptions where
  options := inline.options.normalized
  keyword := if inline.keyword.isEmpty then standardKeyword else inline.keyword
  passes := if inline.passes ≤ 0 then (standardPasses : Int) else inline.passes

end InlineOptions

/-- Collects and applies declared rules until nothing is declared or the passes
are used up. -/
def inlinePasses (keyword : Bytes) (options : Options) :
    Nat → Bytes → Except Symbols.Fault Bytes
  | 0, text => .ok text
  | passes + 1, text =>
      match Declaration.collect keyword options.symbols text with
      | ([], rest) => .ok rest
      | (rules, rest) => do
          let engine ← Engine.compile rules options
          inlinePasses keyword options passes (engine.process rest)

/-- Applies the rules a text declares to the text itself. -/
def processInline (text : Bytes) (inline : InlineOptions) : Except Symbols.Fault Bytes :=
  let inline := inline.normalized
  match inline.options.symbols.fault? with
  | some fault => .error fault
  | none => inlinePasses inline.keyword inline.options inline.passes.toNat text

end Stencil
