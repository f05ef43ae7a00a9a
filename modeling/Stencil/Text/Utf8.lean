import Stencil.Text.Bytes

/-!
# UTF-8

Characters are a view of the bytes.  `width?` recognises the well-formed
sequence a text begins with; a byte that begins none counts as a character of
its own wherever the library moves character by character.
-/

namespace Stencil.Utf8

/-- A byte that can only continue a character. -/
def isContinuation (b : UInt8) : Bool :=
  0x80 ≤ b && b ≤ 0xBF

/-- The second byte a three or four byte character may have after `lead`.  The
narrower ranges exclude overlong forms, surrogates and what lies beyond the
last code point. -/
def isSecond (lead second : UInt8) : Bool :=
  if lead == 0xE0 then 0xA0 ≤ second && second ≤ 0xBF
  else if lead == 0xED then 0x80 ≤ second && second ≤ 0x9F
  else if lead == 0xF0 then 0x90 ≤ second && second ≤ 0xBF
  else if lead == 0xF4 then 0x80 ≤ second && second ≤ 0x8F
  else isContinuation second

/-- The width of the well-formed character the text begins with. -/
def width? : Bytes → Option Nat
  | [] => none
  | a :: rest =>
      if a < 0x80 then some 1
      else if 0xC2 ≤ a && a ≤ 0xDF then
        match rest with
        | b :: _ => if isContinuation b then some 2 else none
        | _ => none
      else if 0xE0 ≤ a && a ≤ 0xEF then
        match rest with
        | b :: c :: _ => if isSecond a b && isContinuation c then some 3 else none
        | _ => none
      else if 0xF0 ≤ a && a ≤ 0xF4 then
        match rest with
        | b :: c :: d :: _ =>
            if isSecond a b && isContinuation c && isContinuation d then some 4
            else none
        | _ => none
      else none

/-- The width of the character the text begins with, where a byte outside any
well-formed character is one character. -/
def width (text : Bytes) : Nat :=
  (width? text).getD 1

theorem width?_pos {text : Bytes} {n : Nat} (known : width? text = some n) : 0 < n := by
  unfold width? at known
  repeat' split at known
  all_goals first | cases known; decide | cases known

theorem width_pos (text : Bytes) : 0 < width text := by
  unfold width
  cases known : width? text with
  | none => decide
  | some n => exact width?_pos known

/-- The code point of one well-formed character. -/
def codePoint : Bytes → Nat
  | [a] => a.toNat
  | [a, b] => (a.toNat - 0xC0) * 0x40 + (b.toNat - 0x80)
  | [a, b, c] =>
      (a.toNat - 0xE0) * 0x1000 + (b.toNat - 0x80) * 0x40 + (c.toNat - 0x80)
  | [a, b, c, d] =>
      (a.toNat - 0xF0) * 0x40000 + (b.toNat - 0x80) * 0x1000 +
        (c.toNat - 0x80) * 0x40 + (d.toNat - 0x80)
  | _ => 0

/-- A text is cut into its characters: each is a well-formed sequence with its
code point, or a single byte outside of any. -/
def units (text : Bytes) : List (Bytes × Option Char) :=
  match text with
  | [] => []
  | b :: rest =>
      match width? (b :: rest) with
      | none => ([b], none) :: units rest
      | some n =>
          let char := (b :: rest).take n
          (char, some (Char.ofNat (codePoint char))) :: units (rest.drop (n - 1))
termination_by text.length
decreasing_by all_goals (simp only [List.length_drop, List.length_cons]; omega)

/-- The characters of a text, when all of it is well-formed. -/
def decode? (text : Bytes) : Option (List Char) :=
  (units text).mapM (·.2)

/-- Whether the text is well-formed throughout. -/
def isValid (text : Bytes) : Bool :=
  (units text).all (·.2.isSome)

/-- The bytes of a list of characters. -/
def encode (chars : List Char) : Bytes :=
  chars.flatMap String.utf8EncodeChar

end Stencil.Utf8
