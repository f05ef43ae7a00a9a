import Stencil.Text.Numeral
import Stencil.Yaml.Source

/-!
# Names, tags and directives

The short words of a stream: the names of anchors, tags with their handles, and
the directives in front of a document.
-/

namespace Stencil.Yaml

/-- The characters of names and handles. -/
def isName (char : Char) : Bool :=
  Numeral.isDigit char || ('a' ≤ char && char ≤ 'z') || ('A' ≤ char && char ≤ 'Z') ||
    char == '_' || char == '-'

/-- Reads the name of an anchor or an alias.  A gap or one of a few marks must
follow it. -/
def name? (text : List Char) : Option (List Char × List Char) :=
  let name := text.takeWhile isName
  let rest := text.dropWhile isName
  if name.isEmpty then none
  else if gapFollows rest || rest.head?.any "?:,]\x7d%@\x60".toList.contains then
    some (name, rest)
  else none

/-- The characters of the suffix of a tag, escapes aside. -/
def isSuffix (char : Char) : Bool :=
  isName char || ";/?:@&=+$,.!~*'()[]".toList.contains char

/-- The number of bytes in a character that begins with a byte. -/
def leadWidth? (lead : Nat) : Option Nat :=
  if lead < 0x80 then some 1
  else if 0xC0 ≤ lead && lead < 0xE0 then some 2
  else if 0xE0 ≤ lead && lead < 0xF0 then some 3
  else if 0xF0 ≤ lead && lead < 0xF8 then some 4
  else none

/-- Reads a suffix.  A character may be written as its bytes in hexadecimal,
each behind a percent sign: `pending` counts the bytes still missing from the
character `code`. -/
def suffix? (pending code : Nat) : List Char → Option (List Char × List Char)
  | '%' :: a :: b :: text =>
      match Hex.number? [a, b] with
      | none => none
      | some n =>
          if pending == 0 then
            match leadWidth? n with
            | none => none
            | some 1 => cons? n (suffix? 0 0 text)
            | some width => suffix? (width - 1) (n % Nat.pow 2 (7 - width)) text
          else if n / 64 == 2 then
            if pending == 1 then cons? (code * 64 + n % 64) (suffix? 0 0 text)
            else suffix? (pending - 1) (code * 64 + n % 64) text
          else none
  | char :: text =>
      if pending != 0 || char == '%' then none
      else if isSuffix char then
        (suffix? 0 0 text).map fun (suffix, rest) => (char :: suffix, rest)
      else some ([], char :: text)
  | [] => if pending == 0 then some ([], []) else none
where
  cons? (code : Nat) (later : Option (List Char × List Char)) : Option (List Char × List Char) :=
    later.map fun (suffix, rest) => (Char.ofNat code :: suffix, rest)

/-- Reads a handle: an exclamation mark, or a name between two. -/
def handle (text : List Char) : List Char × List Char :=
  let name := text.takeWhile isName
  match text.dropWhile isName with
  | '!' :: rest => ('!' :: name ++ ['!'], rest)
  | rest => ('!' :: name, rest)

/-- Reads the handle and the suffix of a tag behind its exclamation mark.  A tag
in angle brackets has no handle, and neither has the single mark. -/
def tagParts? (text : List Char) : Option ((List Char × List Char) × List Char) :=
  match text with
  | '<' :: text =>
      match suffix? 0 0 text with
      | some (suffix@(_ :: _), '>' :: rest) => some (([], suffix), rest)
      | _ => none
  | text =>
      let (head, rest) := handle text
      if head.length > 1 && head.getLast? == some '!' then
        match suffix? 0 0 rest with
        | some (suffix@(_ :: _), rest) => some ((head, suffix), rest)
        | _ => none
      else
        (suffix? 0 0 rest).map fun (suffix, rest) =>
          match head.drop 1 ++ suffix with
          | [] => (([], ['!']), rest)
          | suffix => ((['!'], suffix), rest)

/-- Reads a tag behind its exclamation mark.  A gap must follow it. -/
def tag? (text : List Char) : Option (List Char × List Char × List Char) :=
  match tagParts? text with
  | some ((handle, suffix), rest) => if gapFollows rest then some (handle, suffix, rest) else none
  | none => none

/-- A directive in front of a document. -/
inductive Directive where
  | version (major minor : Nat)
  | handle (handle expansion : List Char)

/-- Reads a number of one or two digits. -/
def shortNumber? (text : List Char) : Option (Nat × List Char) :=
  let digits := text.takeWhile Numeral.isDigit
  if 1 ≤ digits.length && digits.length ≤ 2 then
    (Numeral.natural? 10 digits).map (·, text.dropWhile Numeral.isDigit)
  else none

/-- Reads what a directive says. -/
def directiveBody? (name text : List Char) : Option (Directive × List Char) :=
  if name == "YAML".toList then do
    let (major, rest) ← shortNumber? (text.dropWhile isBlank)
    match rest with
    | '.' :: rest =>
        let (minor, rest) ← shortNumber? rest
        return (.version major minor, rest)
    | _ => none
  else if name == "TAG".toList then
    match text.dropWhile isBlank with
    | '!' :: text =>
        let (head, rest) := handle text
        if (head == ['!'] || head.getLast? == some '!') && rest.head?.any isBlank then
          match suffix? 0 0 (rest.dropWhile isBlank) with
          | some (expansion@(_ :: _), rest) =>
              if gapFollows rest then some (.handle head expansion, rest) else none
          | _ => none
        else none
    | _ => none
  else none

/-- Reads a directive behind its percent sign, with the rest of its line. -/
def directive? (text : List Char) : Option (Directive × List Char) := do
  let name := text.takeWhile isName
  let rest := text.dropWhile isName
  guard (!name.isEmpty && gapFollows rest)
  let (directive, rest) ← directiveBody? name rest
  let rest := rest.dropWhile isBlank
  let rest := if rest.head? == some '#' then rest.dropWhile (!isBreak ·) else rest
  match rest with
  | [] => return (directive, [])
  | char :: rest => if isBreak char then return (directive, rest) else none

end Stencil.Yaml
