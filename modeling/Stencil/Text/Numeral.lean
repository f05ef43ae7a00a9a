import Stencil.Text.Hex

/-!
# Numerals

Which character sequences are integers of sixty-four bits and which are decimal
fractions within the range of double precision.  Only the form and the range of
a number are decided here, since no number is ever computed with.
-/

namespace Stencil.Numeral

/-- An ASCII digit. -/
def isDigit (char : Char) : Bool :=
  '0' ≤ char && char ≤ '9'

/-- The number written by digits of a base up to sixteen.  No digits write
zero. -/
def natural? (base : Nat) (digits : List Char) : Option Nat :=
  digits.foldlM (fun n char =>
    match Hex.value? char with
    | some value => if value < base then some (n * base + value) else none
    | none => none) 0

/-- The number written by at least one digit of a base. -/
def positional? (base : Nat) (digits : List Char) : Option Nat :=
  if digits.isEmpty then none else natural? base digits

/-- A number whose base is told by how it begins: `0x`, `0o` and `0b` in either
case, or a zero for base eight; otherwise the base is ten. -/
def prefixed? : List Char → Option Nat
  | '0' :: mark :: digit :: digits =>
      if mark == 'x' || mark == 'X' then natural? 16 (digit :: digits)
      else if mark == 'o' || mark == 'O' then natural? 8 (digit :: digits)
      else if mark == 'b' || mark == 'B' then natural? 2 (digit :: digits)
      else natural? 8 (mark :: digit :: digits)
  | '0' :: digits => natural? 8 digits
  | digits => positional? 10 digits

/-- The least number that does not fit into sixty-four bits. -/
def wordLimit : Nat := 0x10000000000000000

/-- The least number that does not fit into sixty-four bits with a sign. -/
def signLimit : Nat := 0x8000000000000000

/-- Reads a magnitude behind an optional sign, within sixty-four bits in two's
complement. -/
def signed? (magnitude? : List Char → Option Nat) (text : List Char) : Option Int :=
  match text with
  | '-' :: digits =>
      match magnitude? digits with
      | some n => if n ≤ signLimit then some (-n) else none
      | none => none
  | '+' :: digits => unsigned digits
  | digits => unsigned digits
where
  unsigned (digits : List Char) : Option Int :=
    match magnitude? digits with
    | some n => if n < signLimit then some n else none
    | none => none

/-- A decimal fraction: digits before and after the point, and a power of
ten. -/
structure Decimal where
  whole : List Char
  fraction : List Char
  exponent : Int

namespace Decimal

/-- The exponent behind `e` or `E`, zero when there is none. -/
def exponent? : List Char → Option Int
  | [] => some 0
  | mark :: text =>
      if mark == 'e' || mark == 'E' then
        match text with
        | '-' :: digits => (positional? 10 digits).map fun n => -(n : Int)
        | '+' :: digits => (positional? 10 digits).map fun n => (n : Int)
        | digits => (positional? 10 digits).map fun n => (n : Int)
      else
        none

/-- Reads an unsigned decimal fraction.  It needs a digit before the point, or
one behind it. -/
def unsigned? (text : List Char) : Option Decimal :=
  let whole := text.takeWhile isDigit
  match text.dropWhile isDigit with
  | '.' :: rest =>
      let fraction := rest.takeWhile isDigit
      if whole.isEmpty && fraction.isEmpty then none
      else (exponent? (rest.dropWhile isDigit)).map fun exponent => ⟨whole, fraction, exponent⟩
  | rest =>
      if whole.isEmpty then none
      else (exponent? rest).map fun exponent => ⟨whole, [], exponent⟩

/-- Reads a decimal fraction with an optional sign. -/
def read? : List Char → Option Decimal
  | '-' :: text => unsigned? text
  | '+' :: text => unsigned? text
  | text => unsigned? text

/-- The least number that rounds to no finite number of double precision. -/
def limit : Nat :=
  Nat.pow 2 1024 - Nat.pow 2 970

/-- The number rounds to a finite number of double precision.  Its digits settle
all but the numbers close to the limit. -/
def isFinite (number : Decimal) : Bool :=
  let digits := (number.whole ++ number.fraction).dropWhile (· == '0')
  let scale := number.exponent - number.fraction.length
  let size := digits.length + scale
  if digits.isEmpty || size < 308 then true
  else if 310 < size then false
  else
    let n := (natural? 10 digits).getD 0
    match scale with
    | .ofNat e => n * Nat.pow 10 e < limit
    | .negSucc e => n < limit * Nat.pow 10 (e + 1)

end Decimal

/-- The text is a decimal fraction in range. -/
def isDecimal (text : List Char) : Bool :=
  (Decimal.read? text).any (·.isFinite)

/-- Every underscore stands between two digits. -/
def underscoresBetween (isDigit : Char → Bool) : List Char → Bool
  | [] => true
  | a :: '_' :: b :: text => isDigit a && isDigit b && underscoresBetween isDigit (b :: text)
  | [_, '_'] => false
  | a :: text => a != '_' && underscoresBetween isDigit text

end Stencil.Numeral
