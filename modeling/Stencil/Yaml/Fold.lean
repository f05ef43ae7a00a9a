import Stencil.Text.Hex
import Stencil.Yaml.Source

/-!
# Scalars that fold lines

Plain and quoted scalars may run over several lines.  They consist of stretches
without blanks and of gaps between them; a gap with line breaks is folded: one
line feed becomes a space, of several the first is dropped, and the blanks
around them do not count.
-/

namespace Stencil.Yaml

/-- The blanks and line breaks between two stretches. -/
structure Gap where
  /-- The blanks in front of the first line break. -/
  blanks : List Char := []
  breaks : List Char := []
  /-- The gap begins behind an escaped line break. -/
  escaped : Bool := false

namespace Gap

/-- The gap reaches over the end of a line. -/
def isBroken (gap : Gap) : Bool :=
  gap.escaped || !gap.breaks.isEmpty

/-- What the gap stands for. -/
def fold (gap : Gap) : List Char :=
  if gap.escaped then gap.breaks
  else
    match gap.breaks with
    | [] => gap.blanks
    | ['\n'] => [' ']
    | '\n' :: more => more
    | breaks => breaks

/-- Reads a gap: it returns the column reached and the text behind.  A tab is no
indentation, so none may stand in front of the column `indent` of a new
line. -/
def read? (indent : Int) (gap : Gap) (column : Nat) : List Char → Option (Gap × Nat × List Char)
  | [] => some (gap, column, [])
  | char :: text =>
      if isBreak char then
        read? indent { gap with breaks := gap.breaks ++ [char] } 0 text
      else if isBlank char then
        if !gap.isBroken then
          read? indent { gap with blanks := gap.blanks ++ [char] } (column + 1) text
        else if char == '\t' && (column : Int) < indent then none
        else read? indent gap (column + 1) text
      else some (gap, column, char :: text)

end Gap

/-- Three equal marks that separate documents. -/
def isDocumentMark : List Char → Bool
  | '-' :: '-' :: '-' :: text => gapFollows text
  | '.' :: '.' :: '.' :: text => gapFollows text
  | _ => false

/-- A stretch of a plain scalar.  It ends at a colon with a gap behind it, and
inside brackets also at the marks used there. -/
def plainStretch (inFlow : Bool) : List Char → List Char × List Char
  | [] => ([], [])
  | char :: text =>
      if isGap char || (char == ':' && gapFollows text) ||
          (inFlow && [',', '?', '[', ']', '\x7b', '\x7d'].contains char) then
        ([], char :: text)
      else
        ((char :: (plainStretch inFlow text).1), (plainStretch inFlow text).2)

/-- Reads a plain scalar: its content, whether a line ended behind it, and the
text behind.  It goes on while lines are indented by `indent`, up to a comment
or the end of the document. -/
def plain? (inFlow : Bool) (indent : Int) :
    Nat → Bool → List Char → Option (List Char × Bool × List Char)
  | 0, _, _ => none
  | budget + 1, atLineStart, text =>
      if (atLineStart && isDocumentMark text) || text.head? == some '#' then
        some ([], false, text)
      else
        let (stretch, rest) := plainStretch inFlow text
        if rest.head?.any isGap then
          match Gap.read? indent {} 1 rest with
          | none => none
          | some (gap, column, rest) =>
              if gap.isBroken && !inFlow && (column : Int) < indent then
                some (stretch, true, rest)
              else
                match plain? inFlow indent budget (column == 0) rest with
                | none => none
                | some ([], _, rest) => some (stretch, gap.isBroken, rest)
                | some (content, broken, rest) =>
                    some (stretch ++ gap.fold ++ content, broken, rest)
        else
          some (stretch, false, rest)

/-- A stretch of a single quoted scalar, where a quote is written twice. -/
def singleStretch : List Char → List Char × List Char
  | [] => ([], [])
  | '\'' :: '\'' :: text => ('\'' :: (singleStretch text).1, (singleStretch text).2)
  | char :: text =>
      if char == '\'' || isGap char then ([], char :: text)
      else (char :: (singleStretch text).1, (singleStretch text).2)

/-- Reads a single quoted scalar behind its opening quote. -/
def single? : Nat → Bool → List Char → Option (List Char × List Char)
  | 0, _, _ => none
  | budget + 1, atLineStart, text =>
      if atLineStart && isDocumentMark text then none
      else
        let (stretch, rest) := singleStretch text
        match rest with
        | [] => none
        | '\'' :: rest => some (stretch, rest)
        | rest => do
            let (gap, column, rest) ← Gap.read? 0 {} 1 rest
            let (content, rest) ← single? budget (column == 0) rest
            return (stretch ++ gap.fold ++ content, rest)

/-- The character of a one letter escape. -/
def escapeLetter? (letter : Char) : Option Char :=
  match letter with
  | '0' => some '\x00'
  | 'a' => some '\x07'
  | 'b' => some '\x08'
  | 't' | '\t' => some '\t'
  | 'n' => some '\n'
  | 'v' => some '\x0b'
  | 'f' => some '\x0c'
  | 'r' => some '\r'
  | 'e' => some '\x1b'
  | ' ' | '"' | '\'' | '\\' => some letter
  | 'N' => some '\u0085'
  | '_' => some '\u00a0'
  | 'L' => some '\u2028'
  | 'P' => some '\u2029'
  | _ => none

/-- The character with a hexadecimal code. -/
def coded? (digits : List Char) : Option Char :=
  match Hex.number? digits with
  | some n => if n.isValidChar then some (Char.ofNat n) else none
  | none => none

/-- A stretch of a double quoted scalar, whether an escaped line break ended it,
and the text behind. -/
def doubleStretch? : List Char → Option (List Char × Bool × List Char)
  | [] => some ([], false, [])
  | '\\' :: 'x' :: a :: b :: text => cons? (coded? [a, b]) (doubleStretch? text)
  | '\\' :: 'u' :: a :: b :: c :: d :: text => cons? (coded? [a, b, c, d]) (doubleStretch? text)
  | '\\' :: 'U' :: a :: b :: c :: d :: e :: f :: g :: h :: text =>
      cons? (coded? [a, b, c, d, e, f, g, h]) (doubleStretch? text)
  | '\\' :: letter :: text =>
      if isBreak letter then some ([], true, text)
      else cons? (escapeLetter? letter) (doubleStretch? text)
  | ['\\'] => none
  | char :: text =>
      if char == '"' || isGap char then some ([], false, char :: text)
      else cons? (some char) (doubleStretch? text)
where
  cons? (char? : Option Char) (later : Option (List Char × Bool × List Char)) :
      Option (List Char × Bool × List Char) :=
    match char?, later with
    | some char, some (stretch, escaped, rest) => some (char :: stretch, escaped, rest)
    | _, _ => none

/-- Reads a double quoted scalar behind its opening quote. -/
def double? : Nat → Bool → List Char → Option (List Char × List Char)
  | 0, _, _ => none
  | budget + 1, atLineStart, text =>
      if atLineStart && isDocumentMark text then none
      else
        match doubleStretch? text with
        | none => none
        | some (_, false, []) => none
        | some (stretch, _, '"' :: rest) => some (stretch, rest)
        | some (stretch, escaped, rest) => do
            let (gap, column, rest) ← Gap.read? 0 { escaped } (if escaped then 0 else 1) rest
            let (content, rest) ← double? budget (column == 0) rest
            return (stretch ++ gap.fold ++ content, rest)

end Stencil.Yaml
