import Mathlib.Algebra.Group.Nat.Defs
import Stencil.Digest.Sha256

/-!
# Reading hexadecimal

The digits of a number determine it, up to their count.  So a digest can be
compared in hexadecimal.
-/

namespace Stencil

namespace Hex

/-- The value of a small letter digit. -/
def lowerValue (digit : UInt8) : Nat :=
  if digit < byte 'a' then digit.toNat - (byte '0').toNat
  else digit.toNat - (byte 'a').toNat + 10

/-- The number that small letter digits stand for. -/
def number : Bytes → Nat
  | [] => 0
  | digit :: rest => lowerValue digit * 16 ^ rest.length + number rest

theorem lowerValue_lowerDigit {n : Nat} (small : n < 16) : lowerValue (lowerDigit n) = n := by
  revert n
  decide

@[simp] theorem length_digits (digit : Nat → UInt8) (width n : Nat) :
    (digits digit width n).length = width := by
  simp [digits]

theorem digits_succ (digit : Nat → UInt8) (width n : Nat) :
    digits digit (width + 1) n = digit (n / 16 ^ width % 16) :: digits digit width n := by
  simp [digits, List.range_succ]

theorem number_digits (width n : Nat) : number (digits lowerDigit width n) = n % 16 ^ width := by
  induction width with
  | zero => simp [digits, number, Nat.mod_one]
  | succ width ih =>
      rw [digits_succ, number, ih, length_digits, lowerValue_lowerDigit (Nat.mod_lt _ (by decide)),
        Nat.mod_pow_succ, Nat.mul_comm, Nat.add_comm]

/-- The digits at the beginning of a text can be read. -/
theorem number_take_digits {width n : Nat} (fits : n < 16 ^ width) (rest : Bytes) :
    number ((digits lowerDigit width n ++ rest).take width) = n := by
  rw [List.take_left' (length_digits _ _ _), number_digits, Nat.mod_eq_of_lt fits]

theorem drop_digits (width n : Nat) (rest : Bytes) :
    (digits lowerDigit width n ++ rest).drop width = rest :=
  List.drop_left' (length_digits _ _ _)

theorem ofBytes_injective {left right : Bytes} (same : ofBytes left = ofBytes right) :
    left = right := by
  induction left generalizing right with
  | nil =>
      cases right with
      | nil => rfl
      | cons b right => simp [ofBytes, digits_succ] at same
  | cons a left ih =>
      cases right with
      | nil => simp [ofBytes, digits_succ] at same
      | cons b right =>
          rw [ofBytes, ofBytes, List.flatMap_cons, List.flatMap_cons] at same
          obtain ⟨first, rest⟩ := List.append_inj same (by simp)
          have small (c : UInt8) : c.toNat % 16 ^ 2 = c.toNat := Nat.mod_eq_of_lt c.toNat_lt
          have value := congrArg number first
          rw [number_digits, number_digits, small, small] at value
          rw [UInt8.toNat_inj.mp value, ih rest]

end Hex

namespace Sha256

/-- Different texts with the same digest. -/
def Collision (left right : Bytes) : Prop :=
  left ≠ right ∧ digest left = digest right

theorem hexDigest_eq_iff {left right : Bytes} :
    hexDigest left = hexDigest right ↔ digest left = digest right :=
  ⟨Hex.ofBytes_injective, congrArg Hex.ofBytes⟩

theorem eq_of_digest_eq {left right : Bytes} (apart : ¬ Collision left right)
    (same : digest left = digest right) : left = right :=
  Decidable.byContradiction fun differ => apart ⟨differ, same⟩

end Sha256

end Stencil
