import Stencil.Text.Utf8

/-!
# The characters of a YAML stream

A stream is decoded as a whole before anything else is read: a byte order mark
tells the encoding, every character must be an allowed one, and the several ways
to end a line become one.
-/

namespace Stencil.Yaml

/-- A blank within a line. -/
def isBlank (char : Char) : Bool :=
  char == ' ' || char == '\t'

/-- The end of a line.  The line and paragraph separators are kept apart from
the line feed, since reading preserves them. -/
def isBreak (char : Char) : Bool :=
  char == '\n' || char == '\u2028' || char == '\u2029'

/-- A blank or the end of a line. -/
def isGap (char : Char) : Bool :=
  isBlank char || isBreak char

/-- What follows is a blank, the end of a line or nothing. -/
def gapFollows : List Char → Bool
  | [] => true
  | char :: _ => isGap char

/-- The characters a stream may hold. -/
def isAllowed (char : Char) : Bool :=
  let n := char.toNat
  n == 0x09 || n == 0x0A || n == 0x0D || (0x20 ≤ n && n ≤ 0x7E) || n == 0x85 ||
    (0xA0 ≤ n && n ≤ 0xFFFD) || 0x10000 ≤ n

/-- Every way to end a line becomes a line feed, the separators aside. -/
def unifyBreaks : List Char → List Char
  | [] => []
  | '\r' :: '\n' :: text => '\n' :: unifyBreaks text
  | char :: text => (if char == '\r' || char == '\u0085' then '\n' else char) :: unifyBreaks text

/-- The sixteen bit units of a text, when it has a whole number of them. -/
def units16? (unit : UInt8 → UInt8 → Nat) : Bytes → Option (List Nat)
  | [] => some []
  | a :: b :: text => (units16? unit text).map (unit a b :: ·)
  | [_] => none

/-- The characters of sixteen bit units. -/
def decode16? : List Nat → Option (List Char)
  | [] => some []
  | [unit] => if 0xD800 ≤ unit && unit ≤ 0xDFFF then none else some [Char.ofNat unit]
  | high :: low :: units =>
      if 0xD800 ≤ high && high ≤ 0xDBFF then
        if 0xDC00 ≤ low && low ≤ 0xDFFF then
          (decode16? units).map
            (Char.ofNat (0x10000 + (high - 0xD800) * 0x400 + (low - 0xDC00)) :: ·)
        else none
      else if 0xDC00 ≤ high && high ≤ 0xDFFF then none
      else (decode16? (low :: units)).map (Char.ofNat high :: ·)

/-- The characters of a stream in the encoding its byte order mark tells. -/
def decode? : Bytes → Option (List Char)
  | 0xFF :: 0xFE :: text =>
      (units16? (fun a b => b.toNat * 256 + a.toNat) text).bind decode16?
  | 0xFE :: 0xFF :: text =>
      (units16? (fun a b => a.toNat * 256 + b.toNat) text).bind decode16?
  | 0xEF :: 0xBB :: 0xBF :: text => Utf8.decode? text
  | text => Utf8.decode? text

/-- The characters of a stream, when all of them are allowed. -/
def source? (text : Bytes) : Option (List Char) := do
  let chars ← decode? text
  if chars.all isAllowed then some (unifyBreaks chars) else none

end Stencil.Yaml
