/-!
# Byte strings

Every text this library handles is a finite sequence of bytes, and every
offset counts bytes.  This module fixes that carrier, the two character
classes the pattern language knows, and the search for the first occurrence
of one text in another.
-/

namespace Stencil

/-- A text, as the bytes it consists of. -/
abbrev Bytes := List UInt8

/-- The UTF-8 bytes of a Lean string. -/
def bytes (text : String) : Bytes :=
  text.toUTF8.data.toList

/-- The byte of an ASCII character. -/
def byte (char : Char) : UInt8 :=
  char.toNat.toUInt8

namespace Bytes

/-- The six white space bytes.  No byte from 0x80 on is among them, so a run
of white space never ends inside a multi-byte character. -/
def isSpace (b : UInt8) : Bool :=
  b == 0x20 || (0x09 ≤ b && b ≤ 0x0D)

/-- The bytes a name consists of: ASCII letters, digits and the underscore. -/
def isIdent (b : UInt8) : Bool :=
  b == 0x5F || (0x61 ≤ b && b ≤ 0x7A) || (0x41 ≤ b && b ≤ 0x5A) ||
    (0x30 ≤ b && b ≤ 0x39)

/-- Splits a text at the first occurrence of `needle`: the part before it, and
the part that begins with it. -/
def splitAtFirst (needle : Bytes) : Bytes → Option (Bytes × Bytes)
  | [] => if needle.isEmpty then some ([], []) else none
  | b :: text =>
      if needle.isPrefixOf (b :: text) then
        some ([], b :: text)
      else
        (splitAtFirst needle text).map fun (before, found) =>
          (b :: before, found)

/-- The two parts are the text, and the second begins with the needle. -/
theorem splitAtFirst_eq_some {needle text before found : Bytes}
    (split : splitAtFirst needle text = some (before, found)) :
    text = before ++ found ∧ needle <+: found := by
  induction text generalizing before with
  | nil =>
      simp only [splitAtFirst] at split
      split at split
      · next empty =>
          cases split
          simp_all
      · cases split
  | cons b text ih =>
      simp only [splitAtFirst] at split
      split at split
      · next starts =>
          cases split
          exact ⟨rfl, List.isPrefixOf_iff_prefix.mp starts⟩
      · obtain ⟨⟨before', found'⟩, inner, pair⟩ := Option.map_eq_some_iff.mp split
        cases pair
        obtain ⟨rfl, occurs⟩ := ih inner
        exact ⟨rfl, occurs⟩

/-- Whether `needle` occurs in the text. -/
def contains (text needle : Bytes) : Bool :=
  (splitAtFirst needle text).isSome

/-- Joins texts with a separator between neighbours. -/
def join (separator : Bytes) : List Bytes → Bytes
  | [] => []
  | [text] => text
  | text :: texts => text ++ separator ++ join separator texts

/-- Splits at every occurrence of one byte; the parts do not contain it. -/
def splitOn (separator : UInt8) : Bytes → List Bytes
  | [] => [[]]
  | b :: text =>
      if b == separator then
        [] :: splitOn separator text
      else
        match splitOn separator text with
        | [] => [[b]]
        | part :: parts => (b :: part) :: parts

/-- ASCII capitals become small letters; every other byte stays. -/
def toLower (text : Bytes) : Bytes :=
  text.map fun b => if 0x41 ≤ b && b ≤ 0x5A then b + 0x20 else b

/-- The decimal digits of a natural number. -/
def ofNat (n : Nat) : Bytes :=
  bytes (toString n)

/-- An integer in decimal, with a minus sign when it is negative. -/
def ofInt : Int → Bytes
  | .ofNat n => ofNat n
  | .negSucc n => byte '-' :: ofNat (n + 1)

/-- The lexicographic order of byte strings. -/
def le (left right : Bytes) : Bool :=
  decide (left ≤ right)

end Bytes

end Stencil
