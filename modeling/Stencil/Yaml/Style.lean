import Stencil.Digest.Base64
import Stencil.Text.Utf8
import Stencil.Yaml.Fold
import Stencil.Yaml.Scalar

/-!
# Writing YAML scalars

A string is written plain where it reads back as itself, else in single quotes,
and in double quotes with escapes where it must be.  A string of several lines
is written as a literal block.  Bytes that are no characters are written in base
64 under a tag.
-/

namespace Stencil.Yaml

/-- How a scalar is written. -/
inductive Style where
  | plain
  | single
  | double
  | literal
  deriving DecidableEq

namespace Style

/-- The characters that need no escape.  Beyond the first plane all do. -/
def isPlainChar (char : Char) : Bool :=
  let n := char.toNat
  n == 0x0A || (0x20 ≤ n && n ≤ 0x7E) || (0xA0 ≤ n && n ≤ 0xFFFD && n != 0xFEFF)

/-- A character other than a tab that needs an escape. -/
def isSpecial (char : Char) : Bool :=
  char != '\t' && !isPlainChar char

/-- Some character holds `first` and the one behind it `second`. -/
def adjacent (first second : Char → Bool) : List Char → Bool
  | a :: b :: text => (first a && second b) || adjacent first second (b :: text)
  | _ => false

/-- A space. -/
def isSpace (char : Char) : Bool :=
  char == ' '

/-- A blank follows, or nothing. -/
def blankFollows : List Char → Bool
  | [] => true
  | char :: _ => isBlank char

/-- The text begins with a mark that has a meaning of its own. -/
def beginsMarked : List Char → Bool
  | '-' :: '-' :: '-' :: _ => true
  | '.' :: '.' :: '.' :: _ => true
  | [] => false
  | char :: text =>
      "#,[]\x7b\x7d&*!|>'\"%@\x60".toList.contains char ||
        ((char == '?' || char == ':' || char == '-') && blankFollows text)

/-- A colon with a blank behind it, or a number sign with a gap in front. -/
def holdsMark : List Char → Bool
  | a :: b :: text =>
      (b == ':' && blankFollows text) || (b == '#' && (isGap a || a == '\x00')) ||
        holdsMark (b :: text)
  | _ => false

/-- The text may stand without quotes. -/
def plainAllowed (text : List Char) : Bool :=
  !(beginsMarked text || holdsMark text || text.any isBreak || text.any isSpecial ||
    text.contains '\t' || text.head?.any isSpace || text.getLast?.any isSpace)

/-- The text may stand in single quotes. -/
def singleAllowed (text : List Char) : Bool :=
  !(adjacent isBreak isSpace text || adjacent isSpace isBreak text || text.contains '\t' ||
    text.any isSpecial)

/-- The text may stand as a literal block. -/
def literalAllowed (text : List Char) : Bool :=
  !(text.getLast?.any isSpace || adjacent isSpace isBreak text || text.any isSpecial)

/-- The text reads as a string without quotes, in older versions of the format
too. -/
def readsAsString (text : List Char) : Bool :=
  Tag.ofText true text == .string && !isSexagesimal text &&
    (oldBoolean? (String.ofList text)).isNone

/-- The style a text is written in. -/
def ofText (text : List Char) : Style :=
  if text.contains '\n' then if literalAllowed text then .literal else .double
  else if !readsAsString text then .double
  else if plainAllowed text then .plain
  else if singleAllowed text then .single
  else .double

end Style

/-- The letter of a short escape. -/
def escapeOf? (char : Char) : Option Char :=
  match char.toNat with
  | 0x00 => some '0'
  | 0x07 => some 'a'
  | 0x08 => some 'b'
  | 0x09 => some 't'
  | 0x0A => some 'n'
  | 0x0B => some 'v'
  | 0x0C => some 'f'
  | 0x0D => some 'r'
  | 0x1B => some 'e'
  | 0x22 => some '"'
  | 0x5C => some '\\'
  | 0x85 => some 'N'
  | 0xA0 => some '_'
  | 0x2028 => some 'L'
  | 0x2029 => some 'P'
  | _ => none

/-- Capital letter digits as characters. -/
def hexDigits (width n : Nat) : List Char :=
  (Hex.digits Hex.upperDigit width n).map fun b => Char.ofNat b.toNat

/-- An escaped character. -/
def escaped (char : Char) : List Char :=
  let n := char.toNat
  match escapeOf? char with
  | some letter => ['\\', letter]
  | none =>
      if n ≤ 0xFF then '\\' :: 'x' :: hexDigits 2 n
      else if n ≤ 0xFFFF then '\\' :: 'u' :: hexDigits 4 n
      else '\\' :: 'U' :: hexDigits 8 n

/-- A text in double quotes.  A text that begins with a byte order mark is
escaped throughout. -/
def doubleQuoted (text : List Char) : List Char :=
  let marked := text.head? == some '\ufeff'
  '"' :: text.flatMap (fun char =>
    if marked || !Style.isPlainChar char || isBreak char || char == '"' || char == '\\' then
      escaped char
    else [char]) ++ ['"']

/-- The content of single quotes: a quote is written twice, and a line is
indented. -/
def singleContent (indent : Nat) (lineStart : Bool) : List Char → List Char
  | [] => []
  | char :: text =>
      if isBreak char then char :: singleContent indent true text
      else
        (if lineStart then List.replicate indent ' ' else []) ++
          (if char == '\'' then ['\'', '\''] else [char]) ++ singleContent indent false text

/-- A text in single quotes. -/
def singleQuoted (indent : Nat) (text : List Char) : List Char :=
  '\'' :: singleContent indent false text ++ ['\'']

/-- The mark that tells what becomes of the line breaks at the end. -/
def chompMark (text : List Char) : List Char :=
  match text.reverse with
  | [] => ['-']
  | [char] => if isBreak char then ['+'] else ['-']
  | last :: previous :: _ =>
      if !isBreak last then ['-'] else if isBreak previous then ['+'] else []

/-- The indentation step, which a literal names when its content begins with a
space or a line break. -/
def indentMark (text : List Char) : List Char :=
  if text.head?.any fun char => char == ' ' || isBreak char then ['4'] else []

/-- Where the writer of a literal stands. -/
inductive LiteralPlace where
  /-- Behind the header, whose line is not ended. -/
  | header
  /-- At the start of a line. -/
  | lineStart
  /-- Inside a line. -/
  | inside
  deriving DecidableEq

/-- The lines of a literal.  The line of the header ends in front of the first
character that is no line break. -/
def literalLines (indent : Nat) : LiteralPlace → List Char → List Char
  | _, [] => []
  | place, char :: text =>
      if isBreak char then char :: literalLines indent .lineStart text
      else
        (match place with
          | .header => '\n' :: List.replicate indent ' '
          | .lineStart => List.replicate indent ' '
          | .inside => []) ++ char :: literalLines indent .inside text

/-- A literal block; its last line ends with it only where the text does. -/
def literalBlock (indent : Nat) (text : List Char) : List Char :=
  '|' :: indentMark text ++ chompMark text ++ literalLines indent .header text

/-- A text in a style. -/
def styled (indent : Nat) (style : Style) (text : List Char) : List Char :=
  match style with
  | .plain => text
  | .single => singleQuoted indent text
  | .double => doubleQuoted text
  | .literal => literalBlock indent text

/-- Ends the line, unless it has ended. -/
def endLine (text : List Char) : List Char :=
  if text.getLast?.any isBreak then text else text ++ ['\n']

/-- Lines of seventy characters, each with its line break. -/
def wrapLines : Nat → List Char → List Char
  | 0, _ => []
  | budget + 1, text =>
      if text.isEmpty then []
      else text.take 70 ++ '\n' :: wrapLines budget (text.drop 70)

/-- Bytes in base 64 under their tag. -/
def binary (indent : Nat) (text : Bytes) : List Char :=
  let letters := (Base64.encode text).map fun b => Char.ofNat b.toNat
  "!!binary ".toList ++
    if letters.length < 70 then letters
    else literalBlock indent (wrapLines letters.length letters)

/-- A string, with the line it ends on. -/
def scalarLine (indent : Nat) (text : Bytes) : List Char :=
  match Utf8.decode? text with
  | some chars => endLine (styled indent (Style.ofText chars) chars)
  | none => endLine (binary indent text)

end Stencil.Yaml
