import Stencil.Text.Timestamp
import Stencil.Toml.Statement

/-!
# TOML literals

Strings, booleans, numbers and dates.  A string is read in two steps: its raw
content up to the closing quotes, and then the meaning of the escapes in it.
-/

namespace Stencil.Toml

/-- A blank within a line. -/
def isBlank (char : Char) : Bool :=
  char == ' ' || char == '\t'

/-- The end of a line. -/
def isBreak (char : Char) : Bool :=
  char == '\n' || char == '\r'

/-- The text behind the blanks it begins with. -/
def skipBlanks (text : List Char) : List Char :=
  text.dropWhile isBlank

/-- The character of a one letter escape. -/
def escapeLetter? (letter : Char) : Option Char :=
  match letter with
  | 'b' => some '\x08'
  | 't' => some '\t'
  | 'n' => some '\n'
  | 'f' => some '\x0c'
  | 'r' => some '\r'
  | '"' => some '"'
  | '\\' => some '\\'
  | _ => none

/-- The character with a hexadecimal code. -/
def coded? (digits : List Char) : Option Char :=
  match Hex.number? digits with
  | some n => if n.isValidChar then some (Char.ofNat n) else none
  | none => none

/-- The meaning of raw content. -/
def unescape? : List Char → Option (List Char)
  | [] => some []
  | '\\' :: 'u' :: a :: b :: c :: d :: text =>
      match coded? [a, b, c, d], unescape? text with
      | some char, some chars => some (char :: chars)
      | _, _ => none
  | '\\' :: 'U' :: a :: b :: c :: d :: e :: f :: g :: h :: text =>
      match coded? [a, b, c, d, e, f, g, h], unescape? text with
      | some char, some chars => some (char :: chars)
      | _, _ => none
  | '\\' :: letter :: text =>
      match escapeLetter? letter, unescape? text with
      | some char, some chars => some (char :: chars)
      | _, _ => none
  | ['\\'] => none
  | char :: text => (unescape? text).map (char :: ·)

/-- The raw content of a string on one line and the text behind its closing
quote. -/
def rawLine? : List Char → Option (List Char × List Char)
  | [] => none
  | '"' :: text => some ([], text)
  | '\\' :: escaped :: text =>
      if isBreak escaped then none
      else (rawLine? text).map fun (raw, rest) => ('\\' :: escaped :: raw, rest)
  | char :: text =>
      if isBreak char then none
      else (rawLine? text).map fun (raw, rest) => (char :: raw, rest)

/-- The raw content of a string on several lines and the text behind its closing
quotes.  The last three of a run of quotes close it, and two more may belong to
the content; `before` is the character in front, since behind a backslash even
three may. -/
def rawLines? (before : Char) : List Char → Option (List Char × List Char)
  | [] => none
  | '"' :: text =>
      let more := (text.takeWhile (· == '"')).length
      let most := if before == '\\' then 5 else 4
      if more < 2 then
        (rawLines? '"' text).map fun (raw, rest) => ('"' :: raw, rest)
      else if more ≤ most then
        some (List.replicate (more - 2) '"', text.drop more)
      else
        none
  | '\\' :: escaped :: text =>
      (rawLines? escaped text).map fun (raw, rest) => ('\\' :: escaped :: raw, rest)
  | char :: text =>
      (rawLines? char text).map fun (raw, rest) => (char :: raw, rest)

/-- The content of a literal string on one line and the text behind its closing
quote. -/
def literalLine? : List Char → Option (List Char × List Char)
  | [] => none
  | '\'' :: text => some ([], text)
  | char :: text =>
      if isBreak char then none
      else (literalLine? text).map fun (content, rest) => (char :: content, rest)

/-- The content of a literal string on several lines and the text behind its
closing quotes, the last three of a run of at most five. -/
def literalLines? : List Char → Option (List Char × List Char)
  | [] => none
  | '\'' :: text =>
      let more := (text.takeWhile (· == '\'')).length
      if more < 2 then
        (literalLines? text).map fun (content, rest) => ('\'' :: content, rest)
      else if more ≤ 4 then
        some (List.replicate (more - 2) '\'', text.drop more)
      else
        none
  | char :: text =>
      (literalLines? text).map fun (content, rest) => (char :: content, rest)

/-- The text behind a line break it begins with. -/
def dropBreak : List Char → List Char
  | '\n' :: text => text
  | '\r' :: '\n' :: text => text
  | text => text

/-- Joins lines that end in a backslash: it is removed with all the white space
behind it. -/
def joinLines (joining : Bool) : List Char → List Char
  | [] => []
  | '\\' :: '\\' :: text => '\\' :: '\\' :: joinLines false text
  | char :: text =>
      let isSpace (char : Char) : Bool := isBlank char || isBreak char
      if joining && isSpace char then joinLines true text
      else if char == '\\' && (text.takeWhile isSpace).contains '\n' then joinLines true text
      else char :: joinLines false text

/-- A key that needs no quotes consists of these. -/
def isBare (char : Char) : Bool :=
  Numeral.isDigit char || ('a' ≤ char && char ≤ 'z') || ('A' ≤ char && char ≤ 'Z') ||
    char == '_' || char == '-'

/-- The number has no superfluous zero in front. -/
def noLeadingZero : List Char → Bool
  | '-' :: '0' :: digits | '+' :: '0' :: digits => digits.isEmpty
  | '0' :: digit :: _ => digit == 'x' || digit == 'o' || digit == 'b'
  | _ => true

/-- The lexeme is a whole number. -/
def isInteger (lexeme : List Char) : Bool :=
  let isDigit (char : Char) : Bool := (Hex.value? char).isSome
  Numeral.underscoresBetween isDigit lexeme && noLeadingZero lexeme &&
    (Numeral.signed? Numeral.prefixed? (lexeme.filter (· != '_'))).isSome

/-- Every point stands in front of a digit. -/
def pointsBeforeDigits : List Char → Bool
  | [] => true
  | ['.'] => false
  | '.' :: digit :: text => Numeral.isDigit digit && pointsBeforeDigits (digit :: text)
  | _ :: text => pointsBeforeDigits text

/-- The lexeme is a number with a fraction or an exponent. -/
def isFraction (lexeme : List Char) : Bool :=
  Numeral.underscoresBetween Numeral.isDigit lexeme &&
    noLeadingZero (lexeme.takeWhile fun char => char != '.' && char != 'e' && char != 'E') &&
    pointsBeforeDigits lexeme && Numeral.isDecimal (lexeme.filter (· != '_'))

/-- Reads digits of a base behind its mark. -/
def based? (isDigit : Char → Bool) (mark : Char) (text : List Char) : Option (Expr × List Char) :=
  let inside (char : Char) : Bool := isDigit char || char == '_'
  if isInteger ('0' :: mark :: text.takeWhile inside) then
    some (.number, text.dropWhile inside)
  else
    none

/-- Reads a decimal number behind a sign, if it has one. -/
def decimal? (sign text : List Char) : Option (Expr × List Char) :=
  let inWhole (char : Char) : Bool := Numeral.isDigit char || char == '_'
  let inFraction (char : Char) : Bool :=
    inWhole char || char == '.' || char == 'e' || char == 'E' || char == '-' || char == '+'
  let whole := text.takeWhile inWhole
  let rest := text.dropWhile inWhole
  match rest with
  | '.' :: _ | 'e' :: _ | 'E' :: _ =>
      if isFraction (sign ++ whole ++ rest.takeWhile inFraction) then
        some (.number, rest.dropWhile inFraction)
      else none
  | _ => if isInteger (sign ++ whole) then some (.number, rest) else none

/-- Reads a number behind a sign. -/
def signed? (sign : Char) (text : List Char) : Option (Expr × List Char) :=
  match text with
  | 'i' :: 'n' :: 'f' :: rest | 'n' :: 'a' :: 'n' :: rest => some (.number, rest)
  | digit :: _ => if Numeral.isDigit digit then decimal? [sign] text else none
  | [] => none

/-- Reads a date or time. -/
def moment? (text : List Char) : Option (Expr × List Char) :=
  let inside (char : Char) : Bool :=
    Numeral.isDigit char || ['-', ':', 'T', 't', ' ', '.', 'Z', 'z', '+'].contains char
  let lexeme := ((text.takeWhile inside).reverse.dropWhile (· == ' ')).reverse
  if Timestamp.isExact lexeme then some (.moment, text.dropWhile inside) else none

/-- Reads a number or a date. -/
def number? (text : List Char) : Option (Expr × List Char) :=
  match text with
  | '+' :: rest => signed? '+' rest
  | '-' :: rest => signed? '-' rest
  | '0' :: 'x' :: rest => based? (fun char => (Hex.value? char).isSome) 'x' rest
  | '0' :: 'o' :: rest => based? (fun char => '0' ≤ char && char ≤ '7') 'o' rest
  | '0' :: 'b' :: rest => based? (fun char => char == '0' || char == '1') 'b' rest
  | digit :: _ =>
      if Numeral.isDigit digit then
        match text.dropWhile Numeral.isDigit with
        | '-' :: _ | ':' :: _ => moment? text
        | _ => decimal? [] text
      else none
  | [] => none

/-- Reads anything but an array or a table in braces. -/
def literal? (text : List Char) : Option (Expr × List Char) :=
  match text with
  | '"' :: '"' :: '"' :: rest => do
      let (raw, rest) ← rawLines? '\n' rest
      let content ← unescape? (joinLines false (dropBreak raw))
      return (.text content, rest)
  | '"' :: rest => do
      let (raw, rest) ← rawLine? rest
      let content ← unescape? raw
      return (.text content, rest)
  | '\'' :: '\'' :: '\'' :: rest =>
      (literalLines? rest).map fun (content, rest) => (.text (dropBreak content), rest)
  | '\'' :: rest => (literalLine? rest).map fun (content, rest) => (.text content, rest)
  | 't' :: 'r' :: 'u' :: 'e' :: rest => some (.boolean true, rest)
  | 'f' :: 'a' :: 'l' :: 's' :: 'e' :: rest => some (.boolean false, rest)
  | 'i' :: 'n' :: 'f' :: rest | 'n' :: 'a' :: 'n' :: rest => some (.number, rest)
  | _ => number? text

end Stencil.Toml
