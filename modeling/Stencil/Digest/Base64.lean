import Stencil.Text.Bytes

/-!
# Base 64

Bytes written with sixty-four letters, in groups of four filled up with the
equals sign.
-/

namespace Stencil.Base64

/-- The letter of a number below sixty-four. -/
def letter (n : Nat) : UInt8 :=
  if n < 26 then byte 'A' + n.toUInt8
  else if n < 52 then byte 'a' + (n - 26).toUInt8
  else if n < 62 then byte '0' + (n - 52).toUInt8
  else if n == 62 then byte '+'
  else byte '/'

/-- The number of a letter. -/
def value? (b : UInt8) : Option Nat :=
  if byte 'A' ≤ b && b ≤ byte 'Z' then some (b - byte 'A').toNat
  else if byte 'a' ≤ b && b ≤ byte 'z' then some ((b - byte 'a').toNat + 26)
  else if byte '0' ≤ b && b ≤ byte '9' then some ((b - byte '0').toNat + 52)
  else if b == byte '+' then some 62
  else if b == byte '/' then some 63
  else none

/-- Writes bytes in groups of four letters. -/
def encode : Bytes → Bytes
  | [] => []
  | [a] =>
      let n := a.toNat * 0x10000
      [letter (n / 0x40000), letter (n / 0x1000 % 64), byte '=', byte '=']
  | [a, b] =>
      let n := a.toNat * 0x10000 + b.toNat * 0x100
      [letter (n / 0x40000), letter (n / 0x1000 % 64), letter (n / 0x40 % 64), byte '=']
  | a :: b :: c :: rest =>
      let n := a.toNat * 0x10000 + b.toNat * 0x100 + c.toNat
      letter (n / 0x40000) :: letter (n / 0x1000 % 64) :: letter (n / 0x40 % 64) ::
        letter (n % 64) :: encode rest

/-- Reads groups of four letters, the last of which may be filled up.  Bits
that fill up a group are not looked at. -/
def decodeGroups? : Bytes → Option Bytes
  | [] => some []
  | [a, b, c, d] => do
      let p ← value? a
      let q ← value? b
      if c == byte '=' then
        guard (d == byte '=')
        return [(p * 4 + q / 16).toUInt8]
      let r ← value? c
      if d == byte '=' then
        return [(p * 4 + q / 16).toUInt8, (q % 16 * 16 + r / 4).toUInt8]
      let s ← value? d
      return [(p * 4 + q / 16).toUInt8, (q % 16 * 16 + r / 4).toUInt8,
        (r % 4 * 64 + s).toUInt8]
  | a :: b :: c :: d :: rest => do
      let p ← value? a
      let q ← value? b
      let r ← value? c
      let s ← value? d
      let later ← decodeGroups? rest
      return (p * 4 + q / 16).toUInt8 :: (q % 16 * 16 + r / 4).toUInt8 ::
        (r % 4 * 64 + s).toUInt8 :: later
  | _ => none

/-- Reads base 64, passing over line breaks. -/
def decode? (text : Bytes) : Option Bytes :=
  decodeGroups? (text.filter fun b => b != byte '\n' && b != byte '\r')

end Stencil.Base64
