import Stencil.Text.Utf8
import Stencil.Toml.Literal

/-!
# Reading TOML

From a text to its statements.  Every reader takes the text in front of it and
returns what it read with the text behind.  Readers that call each other count
down a budget that the length of the text bounds.
-/

namespace Stencil.Toml

/-- Passes over blanks, line breaks and comments. -/
def skipTrivia (inComment : Bool) : List Char → List Char
  | [] => []
  | char :: text =>
      if inComment then skipTrivia (!isBreak char) text
      else if isBlank char || isBreak char then skipTrivia false text
      else if char == '#' then skipTrivia true text
      else char :: text

/-- Reads one part of a key: a string on one line or a run of bare
characters. -/
def keyPart? : List Char → Option (List Char × List Char)
  | '"' :: text => do
      let (raw, rest) ← rawLine? text
      return (← unescape? raw, rest)
  | '\'' :: text => literalLine? text
  | text =>
      let bare := text.takeWhile isBare
      if bare.isEmpty then none else some (bare, text.dropWhile isBare)

/-- Reads a dotted key and the blanks behind it. -/
def key? : Nat → List Char → Option (Key × List Char)
  | 0, _ => none
  | budget + 1, text => do
      let (part, rest) ← keyPart? (skipBlanks text)
      match skipBlanks rest with
      | '.' :: rest =>
          let (parts, rest) ← key? budget rest
          return (part :: parts, rest)
      | rest => return ([part], rest)

mutual

/-- Reads the right-hand side of an entry or an item of an array. -/
def value? : Nat → List Char → Option (Expr × List Char)
  | 0, _ => none
  | budget + 1, text =>
      match skipBlanks text with
      | '[' :: rest => (items? budget rest).map fun (items, rest) => (.array items, rest)
      | '\x7b' :: rest =>
          match skipBlanks rest with
          | '\x7d' :: rest => some (.inline [], rest)
          | rest => (entries? budget rest).map fun (entries, rest) => (.inline entries, rest)
      | rest => literal? rest

/-- Reads the items of an array up to its closing bracket.  A comma may follow
the last item. -/
def items? : Nat → List Char → Option (List Expr × List Char)
  | 0, _ => none
  | budget + 1, text =>
      match skipTrivia false text with
      | ']' :: rest => some ([], rest)
      | rest => do
          let (item, rest) ← value? budget rest
          match skipTrivia false rest with
          | ',' :: rest =>
              let (items, rest) ← items? budget rest
              return (item :: items, rest)
          | ']' :: rest => return ([item], rest)
          | _ => none

/-- Reads the entries of a table in braces up to its closing brace.  No comma
may follow the last entry, and all of them stand on one line. -/
def entries? : Nat → List Char → Option (List (Key × Expr) × List Char)
  | 0, _ => none
  | budget + 1, text => do
      let (key, rest) ← key? budget text
      match rest with
      | '=' :: rest =>
          let (value, rest) ← value? budget rest
          match skipBlanks rest with
          | ',' :: rest =>
              let (entries, rest) ← entries? budget rest
              return ((key, value) :: entries, rest)
          | '\x7d' :: rest => return ([(key, value)], rest)
          | _ => none
      | _ => none

end

/-- Reads one statement. -/
def statement? (budget : Nat) : List Char → Option (Statement × List Char)
  | '[' :: '[' :: text => do
      let (key, rest) ← key? budget text
      match rest with
      | ']' :: ']' :: rest => return (.element key, rest)
      | _ => none
  | '[' :: text => do
      let (key, rest) ← key? budget text
      match rest with
      | ']' :: rest => return (.table key, rest)
      | _ => none
  | text => do
      let (key, rest) ← key? budget text
      match rest with
      | '=' :: rest =>
          let (value, rest) ← value? budget rest
          return (.entry key value, rest)
      | _ => none

/-- The text from the end of the line on; a statement has its line to itself. -/
def lineEnd? (text : List Char) : Option (List Char) :=
  match skipBlanks text with
  | [] => some []
  | char :: rest => if isBreak char || char == '#' then some (char :: rest) else none

/-- Reads statements up to the end of the text. -/
def statements? : Nat → List Char → Option (List Statement)
  | 0, _ => none
  | budget + 1, text =>
      match skipTrivia false text with
      | [] => some []
      | text => do
          let (statement, rest) ← statement? budget text
          let rest ← lineEnd? rest
          let statements ← statements? budget rest
          return statement :: statements

/-- No character is a control character other than a tab or a line break, and
every carriage return belongs to a line break. -/
def isClean : List Char → Bool
  | [] => true
  | '\r' :: '\n' :: text => isClean text
  | char :: text =>
      (char == '\t' || char == '\n' || (0x20 ≤ char.toNat && char.toNat != 0x7F)) && isClean text

/-- The text without a byte order mark. -/
def dropMark : Bytes → Bytes
  | 0xFF :: 0xFE :: text | 0xFE :: 0xFF :: text | 0xEF :: 0xBB :: 0xBF :: text => text
  | text => text

/-- Reads a document. -/
def parse? (text : Bytes) : Option (List Statement) := do
  let chars ← Utf8.decode? (dropMark text)
  if isClean chars then statements? (chars.length + 1) chars else none

end Stencil.Toml
