import Stencil.Text.Numeral
import Stencil.Yaml.Source

/-!
# Block scalars

A literal scalar keeps its lines, a folded one joins them.  A header says what
becomes of the line breaks at the end and, if it is not left to the first line,
by how much the content is indented.
-/

namespace Stencil.Yaml

/-- What becomes of the line breaks at the end of a block scalar. -/
inductive Chomp where
  /-- All are dropped. -/
  | strip
  /-- The first is kept. -/
  | clip
  /-- All are kept. -/
  | keep
  deriving DecidableEq

/-- The header of a block scalar. -/
structure BlockHeader where
  chomp : Chomp := .clip
  /-- The indentation below the surrounding one; zero leaves it to the first
  line. -/
  increment : Nat := 0

/-- The chomping a mark asks for. -/
def chompMark? (mark : Char) : Option Chomp :=
  if mark == '+' then some .keep else if mark == '-' then some .strip else none

/-- The increment a digit other than zero asks for. -/
def increment? (digit : Char) : Option Nat :=
  if Numeral.isDigit digit then some (digit.toNat - '0'.toNat) else none

/-- Reads the marks of a header in either order. -/
def blockMarks? (text : List Char) : Option (BlockHeader × List Char) :=
  match text with
  | [] => some ({}, [])
  | first :: rest =>
      match chompMark? first, increment? first with
      | some chomp, _ =>
          match rest with
          | [] => some ({ chomp }, [])
          | digit :: behind =>
              match increment? digit with
              | some 0 => none
              | some increment => some ({ chomp, increment }, behind)
              | none => some ({ chomp }, rest)
      | none, some 0 => none
      | none, some increment =>
          match rest with
          | [] => some ({ increment }, [])
          | mark :: behind =>
              match chompMark? mark with
              | some chomp => some ({ chomp, increment }, behind)
              | none => some ({ increment }, rest)
      | none, none => some ({}, text)

/-- Reads a header and the rest of its line, on which only a comment may
stand. -/
def blockHeader? (text : List Char) : Option (BlockHeader × List Char) := do
  let (header, rest) ← blockMarks? text
  let rest := rest.dropWhile isBlank
  let rest := if rest.head? == some '#' then rest.dropWhile (!isBreak ·) else rest
  match rest with
  | [] => return (header, [])
  | char :: rest => if isBreak char then return (header, rest) else none

/-- Passes over indentation and empty lines: it returns the line breaks, the
widest indentation seen, the column reached and the text behind.  While the
indentation of the content is unknown, `indent` is zero and all spaces count. -/
def indentation? (indent : Nat) (column widest : Nat) (breaks : List Char) :
    List Char → Option (List Char × Nat × Nat × List Char)
  | [] => some (breaks, max widest column, column, [])
  | char :: text =>
      let within := indent == 0 || column < indent
      if within && char == ' ' then indentation? indent (column + 1) widest breaks text
      else if within && char == '\t' then none
      else if isBreak char then
        indentation? indent 0 (max widest column) (breaks ++ [char]) text
      else some (breaks, max widest column, column, char :: text)

/-- The break between two lines of content and the empty lines behind it.  A
folded scalar joins lines that do not begin with a blank. -/
def joinBreaks (folded afterBlank beforeBlank : Bool) (lineBreak breaks : List Char) : List Char :=
  if folded && !afterBlank && !beforeBlank && lineBreak == ['\n'] then
    (if breaks.isEmpty then [' '] else []) ++ breaks
  else
    lineBreak ++ breaks

/-- Reads the lines of the content: it returns the content, the break behind its
last line, the empty lines that follow, and the text behind. -/
def blockLines? (folded : Bool) (indent : Nat) :
    Nat → Bool → List Char → List Char → Nat → List Char →
      Option (List Char × List Char × List Char × List Char)
  | 0, _, _, _, _, _ => none
  | budget + 1, afterBlank, lineBreak, breaks, column, text =>
      if column == indent && !text.isEmpty then
        let blank := text.head?.any isBlank
        let line := text.takeWhile (!isBreak ·)
        let rest := text.dropWhile (!isBreak ·)
        match indentation? indent 0 0 [] (rest.drop 1) with
        | none => none
        | some (nextBreaks, _, nextColumn, next) =>
            match blockLines? folded indent budget blank (rest.take 1) nextBreaks nextColumn next with
            | none => none
            | some (content, tail) =>
                some (joinBreaks folded afterBlank blank lineBreak breaks ++ line ++ content, tail)
      else
        some ([], lineBreak, breaks, text)

/-- Reads a block scalar behind its mark.  `outer` is the indentation around
it. -/
def block? (folded : Bool) (outer : Int) (text : List Char) : Option (List Char × List Char) := do
  let (header, text) ← blockHeader? text
  let given := if header.increment == 0 then 0 else (max outer 0).toNat + header.increment
  let (breaks, widest, column, text) ← indentation? given 0 0 [] text
  let indent := if given == 0 then max widest (max (outer + 1).toNat 1) else given
  let (content, lineBreak, breaks, rest) ←
    blockLines? folded indent (text.length + 1) false [] breaks column text
  let ending :=
    match header.chomp with
    | .strip => []
    | .clip => lineBreak
    | .keep => lineBreak ++ breaks
  return (content ++ ending, rest)

end Stencil.Yaml
