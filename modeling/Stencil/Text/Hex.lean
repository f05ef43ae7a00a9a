import Stencil.Text.Bytes

/-!
# Hexadecimal

Numbers written in base sixteen, most significant digit first.
-/

namespace Stencil.Hex

/-- A small letter digit below sixteen. -/
def lowerDigit (n : Nat) : UInt8 :=
  if n < 10 then byte '0' + n.toUInt8 else byte 'a' + (n - 10).toUInt8

/-- A capital letter digit below sixteen. -/
def upperDigit (n : Nat) : UInt8 :=
  if n < 10 then byte '0' + n.toUInt8 else byte 'A' + (n - 10).toUInt8

/-- The last `width` digits of a number. -/
def digits (digit : Nat → UInt8) (width n : Nat) : Bytes :=
  (List.range width).reverse.map fun place => digit (n / Nat.pow 16 place % 16)

/-- Two small letter digits for each byte. -/
def ofBytes (text : Bytes) : Bytes :=
  text.flatMap fun b => digits lowerDigit 2 b.toNat

/-- The value of a digit. -/
def value? (char : Char) : Option Nat :=
  if '0' ≤ char && char ≤ '9' then some (char.toNat - '0'.toNat)
  else if 'a' ≤ char && char ≤ 'f' then some (char.toNat - 'a'.toNat + 10)
  else if 'A' ≤ char && char ≤ 'F' then some (char.toNat - 'A'.toNat + 10)
  else none

/-- The number a sequence of digits stands for. -/
def number? (chars : List Char) : Option Nat :=
  chars.foldlM (fun n char => (value? char).map (n * 16 + ·)) 0

end Stencil.Hex
