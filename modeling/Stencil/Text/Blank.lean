import Stencil.Text.Utf8

/-!
# Blank characters

The white space of Unicode, which is what trimming removes from the ends of a
text.  It is wider than the white space of the pattern language.  A byte
outside any character is not blank.
-/

namespace Stencil

/-- The white space characters of Unicode. -/
def isBlank (char : Char) : Bool :=
  let n := char.toNat
  (0x09 ≤ n && n ≤ 0x0D) || n == 0x20 || n == 0x85 || n == 0xA0 || n == 0x1680 ||
    (0x2000 ≤ n && n ≤ 0x200A) || n == 0x2028 || n == 0x2029 || n == 0x202F ||
    n == 0x205F || n == 0x3000

/-- The text without the blank characters at its ends. -/
def Bytes.trim (text : Bytes) : Bytes :=
  let blank (unit : Bytes × Option Char) : Bool := unit.2.any isBlank
  ((((Utf8.units text).dropWhile blank).reverse.dropWhile blank).reverse).flatMap (·.1)

end Stencil
