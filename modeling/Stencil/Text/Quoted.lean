import Stencil.Text.Hex
import Stencil.Text.Printable
import Stencil.Text.Utf8

/-!
# Quoted text

A text in double quotes, with everything that is not printable escaped.
Different texts have different quoted forms, so quoted texts can be laid side by
side without ambiguity.
-/

namespace Stencil.Quoted

/-- The letter of a short escape. -/
def shortEscape? (n : Nat) : Option Char :=
  match n with
  | 0x07 => some 'a'
  | 0x08 => some 'b'
  | 0x0C => some 'f'
  | 0x0A => some 'n'
  | 0x0D => some 'r'
  | 0x09 => some 't'
  | 0x0B => some 'v'
  | _ => none

/-- The form of one character inside the quotes. -/
def char (c : Char) : Bytes :=
  let n := c.toNat
  if c == '"' || c == '\\' then [byte '\\', byte c]
  else if isPrintable c then String.utf8EncodeChar c
  else
    match shortEscape? n with
    | some letter => [byte '\\', byte letter]
    | none =>
        if n < 0x80 then bytes "\\x" ++ Hex.digits Hex.lowerDigit 2 n
        else if n < 0x10000 then bytes "\\u" ++ Hex.digits Hex.lowerDigit 4 n
        else bytes "\\U" ++ Hex.digits Hex.lowerDigit 8 n

/-- The form of one unit of a text: a character, or a byte outside any. -/
def unit : Bytes × Option Char → Bytes
  | (_, some c) => char c
  | (text, none) => text.flatMap fun b => bytes "\\x" ++ Hex.digits Hex.lowerDigit 2 b.toNat

/-- A text in double quotes. -/
def quote (text : Bytes) : Bytes :=
  byte '"' :: (Utf8.units text).flatMap unit ++ [byte '"']

end Stencil.Quoted
