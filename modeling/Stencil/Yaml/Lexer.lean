import Stencil.Yaml.Block
import Stencil.Yaml.Fold
import Stencil.Yaml.Tag
import Stencil.Yaml.Token

/-!
# Tokens of a stream

The lexer reads one token after the other.  Two things need more than the text
in front: indentation opens and closes collections, and the key of a mapping is
recognised only at the colon behind it.  A place where a key may begin is kept
as a candidate; at the colon, the tokens that open the key go in front of it.
-/

namespace Stencil.Yaml

/-- A place where the key of a mapping may have begun. -/
structure Candidate where
  /-- The number of tokens in front of it. -/
  number : Nat
  index : Nat
  line : Nat
  column : Nat
  /-- Nothing but a key can stand there. -/
  required : Bool

/-- A position in a stream and what is needed to go on. -/
structure Lexer where
  rest : List Char
  index : Nat := 0
  line : Nat := 0
  column : Nat := 0
  /-- The column of the innermost collection told by indentation. -/
  indent : Int := -1
  /-- The columns of the collections around it. -/
  outer : List Int := []
  /-- The candidate at the present depth of brackets. -/
  candidate : Option Candidate := none
  /-- The candidates at the depths around it. -/
  pending : List (Option Candidate) := []
  /-- A key may begin here. -/
  keyAllowed : Bool := true
  /-- The tokens so far, latest first. -/
  tokens : List Token := []

namespace Lexer

/-- Whether the position is inside brackets. -/
def inFlow (lexer : Lexer) : Bool :=
  !lexer.pending.isEmpty

/-- Moves past one character. -/
def advance (lexer : Lexer) (char : Char) : Lexer :=
  if isBreak char then
    { lexer with index := lexer.index + 1, line := lexer.line + 1, column := 0 }
  else
    { lexer with index := lexer.index + 1, column := lexer.column + 1 }

/-- Moves to `rest`, a remainder of what follows. -/
def moveTo (lexer : Lexer) (rest : List Char) : Lexer :=
  let passed := lexer.rest.take (lexer.rest.length - rest.length)
  { passed.foldl advance lexer with rest }

/-- Adds a token. -/
def emit (lexer : Lexer) (token : Token) : Lexer :=
  { lexer with tokens := token :: lexer.tokens }

/-- Adds tokens behind the first `number` ones. -/
def insert (lexer : Lexer) (number : Nat) (tokens : List Token) : Lexer :=
  let later := lexer.tokens.length - number
  { lexer with
    tokens := lexer.tokens.take later ++ tokens.reverse ++ lexer.tokens.drop later }

/-- Opens a collection at a column that lies further in. -/
def roll (lexer : Lexer) (column : Nat) (number : Nat) (token : Token) : Lexer :=
  if !lexer.inFlow && lexer.indent < column then
    { lexer with indent := column, outer := lexer.indent :: lexer.outer }.insert number [token]
  else lexer

/-- Closes the collections that lie further in than a column. -/
def unroll (column : Int) : List Int → Lexer → Lexer
  | [], lexer => lexer
  | indent :: outer, lexer =>
      if !lexer.inFlow && column < lexer.indent then
        unroll column outer ({ lexer with indent, outer }.emit .blockEnd)
      else lexer

/-- Gives up the candidate, unless it has to become a key. -/
def dropCandidate? (lexer : Lexer) : Option Lexer :=
  if lexer.candidate.any (·.required) then none else some { lexer with candidate := none }

/-- Makes the position a candidate where a key may begin. -/
def saveCandidate? (lexer : Lexer) : Option Lexer :=
  if lexer.keyAllowed then do
    let dropped ← lexer.dropCandidate?
    return { dropped with
      candidate := some
        { number := lexer.tokens.length, index := lexer.index, line := lexer.line,
          column := lexer.column,
          required := !lexer.inFlow && lexer.indent == (lexer.column : Int) } }
  else some lexer

/-- The candidate, if it can still become a key: it has to be on the same line
and not far back.  The outer result is missing when a required one cannot. -/
def liveCandidate? (lexer : Lexer) : Option (Option Candidate) :=
  match lexer.candidate with
  | none => some none
  | some candidate =>
      if candidate.line < lexer.line || candidate.index + 1024 < lexer.index then
        if candidate.required then none else some none
      else some (some candidate)

/-- The text behind comment lines, from the end of the last one on. -/
def skipComments : Nat → List Char → List Char
  | 0, text => text
  | budget + 1, text =>
      let rest := text.dropWhile (!isBreak ·)
      let next := rest.dropWhile isGap
      if next.head? == some '#' then skipComments budget next else rest

/-- Passes over blanks, comments and line breaks.  A tab may only stand where no
key can begin. -/
def skipToToken : Nat → Lexer → Lexer
  | 0, lexer => lexer
  | budget + 1, lexer =>
      let tabs := lexer.inFlow || !lexer.keyAllowed
      let text := lexer.rest.dropWhile fun char => char == ' ' || (tabs && char == '\t')
      let text := if text.head? == some '#' then skipComments text.length text else text
      match text with
      | [] => lexer.moveTo []
      | char :: rest =>
          if isBreak char then
            skipToToken budget
              { lexer.moveTo rest with keyAllowed := lexer.keyAllowed || !lexer.inFlow }
          else lexer.moveTo text

/-- Passes over a comment on the line of a token. -/
def skipLineComment (lexer : Lexer) : Lexer :=
  match lexer.rest.dropWhile isBlank with
  | '#' :: text => lexer.moveTo (text.dropWhile (!isBreak ·))
  | _ => lexer

/-- Reads the end of the stream. -/
def streamEnd? (lexer : Lexer) : Option Lexer := do
  let lexer ← (unroll (-1) lexer.outer lexer).dropCandidate?
  return { lexer with keyAllowed := false }.emit .streamEnd

/-- Reads a token that closes everything in front of it. -/
def documentToken? (lexer : Lexer) (token : Token) (rest : List Char) : Option Lexer := do
  let lexer ← (unroll (-1) lexer.outer lexer).dropCandidate?
  return ({ lexer with keyAllowed := false }.moveTo rest).emit token

/-- Reads an opening bracket. -/
def openFlow? (lexer : Lexer) (token : Token) (rest : List Char) : Option Lexer := do
  let lexer ← lexer.saveCandidate?
  let lexer := lexer.moveTo rest
  return { lexer with
    candidate := none, pending := lexer.candidate :: lexer.pending, keyAllowed := true }.emit token

/-- Reads a closing bracket. -/
def closeFlow? (lexer : Lexer) (token : Token) (rest : List Char) : Option Lexer := do
  let lexer ← lexer.dropCandidate?
  let lexer :=
    match lexer.pending with
    | [] => lexer
    | candidate :: pending => { lexer with candidate, pending }
  return ({ lexer with keyAllowed := false }.moveTo rest).emit token

/-- Reads a comma. -/
def comma? (lexer : Lexer) (rest : List Char) : Option Lexer := do
  let lexer ← lexer.dropCandidate?
  return ({ lexer with keyAllowed := true }.moveTo rest).emit .comma

/-- Reads a dash in front of an item. -/
def item? (lexer : Lexer) (rest : List Char) : Option Lexer := do
  guard (lexer.inFlow || lexer.keyAllowed)
  let lexer ← (lexer.roll lexer.column lexer.tokens.length .sequenceStart).dropCandidate?
  return ({ lexer with keyAllowed := true }.moveTo rest).emit .item

/-- Reads a question mark in front of a key. -/
def key? (lexer : Lexer) (rest : List Char) : Option Lexer := do
  guard (lexer.inFlow || lexer.keyAllowed)
  let lexer ← (lexer.roll lexer.column lexer.tokens.length .mappingStart).dropCandidate?
  return ({ lexer with keyAllowed := !lexer.inFlow }.moveTo rest).emit .key

/-- Reads a colon: the candidate becomes a key, or the key in front has a mark
of its own. -/
def value? (lexer : Lexer) (rest : List Char) : Option Lexer := do
  match ← lexer.liveCandidate? with
  | some candidate =>
      let lexer := lexer.insert candidate.number [.key]
      let lexer := lexer.roll candidate.column candidate.number .mappingStart
      return ({ lexer with candidate := none, keyAllowed := false }.moveTo rest).emit .value
  | none =>
      guard (lexer.inFlow || lexer.keyAllowed)
      let lexer := lexer.roll lexer.column lexer.tokens.length .mappingStart
      return ({ lexer with candidate := none, keyAllowed := !lexer.inFlow }.moveTo rest).emit .value

/-- Reads a token that may begin a key. -/
def keyToken? (lexer : Lexer) (read : Option (Token × List Char)) : Option Lexer := do
  let lexer ← lexer.saveCandidate?
  let (token, rest) ← read
  return ({ lexer with keyAllowed := false }.moveTo rest).emit token

/-- Reads a block scalar. -/
def blockScalar? (lexer : Lexer) (folded : Bool) (text : List Char) : Option Lexer := do
  let lexer ← lexer.dropCandidate?
  let (content, rest) ← block? folded lexer.indent text
  return ({ lexer with keyAllowed := true }.moveTo rest).emit (.scalar false content)

/-- Reads a plain scalar.  A key may begin behind it when it ended with its
line. -/
def plainScalar? (lexer : Lexer) : Option Lexer := do
  let lexer ← lexer.saveCandidate?
  let (content, broken, rest) ←
    plain? lexer.inFlow (lexer.indent + 1) (lexer.rest.length + 1) false lexer.rest
  let lexer := ({ lexer with keyAllowed := broken }.moveTo rest).emit (.scalar true content)
  return if broken then lexer else lexer.skipLineComment

/-- Marks that cannot begin a plain scalar. -/
def isIndicator (char : Char) : Bool :=
  "-?:,[]\x7b\x7d#&*!|>'\"%@\x60".toList.contains char

/-- A plain scalar begins here. -/
def beginsPlain (inFlow : Bool) (char : Char) (text : List Char) : Bool :=
  !(isGap char || isIndicator char) ||
    (char == '-' && !text.head?.any isBlank) ||
    (!inFlow && (char == '?' || char == ':') && !gapFollows text)

/-- Reads a token other than the end of the stream and the marks between
documents. -/
def contentToken? (lexer : Lexer) (char : Char) (text : List Char) : Option Lexer :=
  let budget := text.length + 1
  let commented := Option.map skipLineComment
  if char == '[' then commented (lexer.openFlow? .flowSequenceStart text)
  else if char == '\x7b' then commented (lexer.openFlow? .flowMappingStart text)
  else if char == ']' then commented (lexer.closeFlow? .flowSequenceEnd text)
  else if char == '\x7d' then commented (lexer.closeFlow? .flowMappingEnd text)
  else if char == ',' then commented (lexer.comma? text)
  else if char == '-' && gapFollows text then lexer.item? text
  else if char == '?' && (lexer.inFlow || gapFollows text) then commented (lexer.key? text)
  else if char == ':' && (lexer.inFlow || gapFollows text) then commented (lexer.value? text)
  else if char == '*' then
    commented (lexer.keyToken? ((name? text).map fun (name, rest) => (.alias name, rest)))
  else if char == '&' then
    commented (lexer.keyToken? ((name? text).map fun (name, rest) => (.anchor name, rest)))
  else if char == '!' then
    commented (lexer.keyToken? ((tag? text).map fun (handle, suffix, rest) =>
      (.tag handle suffix, rest)))
  else if char == '|' && !lexer.inFlow then lexer.blockScalar? false text
  else if char == '>' && !lexer.inFlow then lexer.blockScalar? true text
  else if char == '\'' then
    commented (lexer.keyToken? ((single? budget false text).map fun (content, rest) =>
      (.scalar false content, rest)))
  else if char == '"' then
    commented (lexer.keyToken? ((double? budget false text).map fun (content, rest) =>
      (.scalar false content, rest)))
  else if beginsPlain lexer.inFlow char text then lexer.plainScalar?
  else none

/-- Reads the token at the position. -/
def token? (lexer : Lexer) : Option Lexer :=
  match lexer.rest with
  | [] => lexer.streamEnd?
  | char :: text =>
      if lexer.column == 0 && char == '%' then
        match directive? text with
        | some (.version major minor, rest) => lexer.documentToken? (.version major minor) rest
        | some (.handle handle expansion, rest) =>
            lexer.documentToken? (.handle handle expansion) rest
        | none => none
      else if lexer.column == 0 && isDocumentMark lexer.rest then
        lexer.documentToken? (if char == '-' then .documentStart else .documentEnd) (text.drop 2)
      else lexer.contentToken? char text

/-- Reads tokens up to the end of the stream.  A reader looks two tokens ahead,
so the last two in front of an unreadable place are out of reach. -/
def run : Nat → Lexer → List Token
  | 0, lexer => (.unreadable :: lexer.tokens).reverse
  | budget + 1, lexer =>
      let lexer := skipToToken (lexer.rest.length + 1) lexer
      let lexer := unroll lexer.column lexer.outer lexer
      match lexer.token? with
      | none => (.unreadable :: lexer.tokens.drop 2).reverse
      | some next =>
          if next.tokens.head? == some .streamEnd then next.tokens.reverse
          else run budget next

end Lexer

/-- The tokens of a stream. -/
def tokens (source : List Char) : List Token :=
  Lexer.run (2 * source.length + 2) { rest := source }

end Stencil.Yaml
