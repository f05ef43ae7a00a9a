import Stencil.Proofs.Hex
import Stencil.Proofs.Utf8
import Stencil.Text.Quoted

/-!
# Reading quoted texts

Inside the quotes every unit of a text has a form that can be read back without
looking behind it: `readUnit` gives the bytes of the unit and what follows its
form.  No form begins with the quote that ends the text.  So a quoted text is
determined by any text that begins with it (`quote_append_inj`), and quoted texts
that stand side by side can be told apart.
-/

namespace Stencil

namespace Utf8

/-- A unit is a character or a single byte. -/
def IsUnit (unit : Bytes × Option Char) : Prop :=
  (∃ char, unit = (String.utf8EncodeChar char, some char)) ∨ ∃ b, unit = ([b], none)

theorem isUnit_of_mem_units {text : Bytes} {unit : Bytes × Option Char}
    (member : unit ∈ units text) : IsUnit unit := by
  fun_induction units text with
  | case1 => cases member
  | case2 b rest _ ih =>
      rcases List.mem_cons.mp member with rfl | later
      · exact .inr ⟨b, rfl⟩
      · exact ih later
  | case3 b rest n known char ih =>
      rcases List.mem_cons.mp member with rfl | later
      · have encoded := (encode_codePoint known).1
        exact .inl ⟨Char.ofNat (codePoint char), by rw [encoded]⟩
      · exact ih later

/-- A character with an ASCII byte in front is the character of that byte. -/
theorem toNat_of_ascii {char : Char} {b : UInt8} {tail : Bytes}
    (shape : String.utf8EncodeChar char = b :: tail) (ascii : b.toNat < 0x80) :
    char.toNat = b.toNat := by
  have range := code_range char
  have code : char.toNat = char.val.toNat := rfl
  unfold String.utf8EncodeChar at shape
  rw [code]
  generalize char.val.toNat = code at range shape ⊢
  dsimp only at shape
  repeat' split at shape
  all_goals
    obtain ⟨rfl, -⟩ := List.cons.inj shape
    simp only [UInt8.toNat_ofNat'] at ascii ⊢
    omega

end Utf8

namespace Quoted

/-- The byte a short escape stands for.  Quotes and backslashes stand for
themselves. -/
def shortByte (letter : UInt8) : UInt8 :=
  if letter = byte 'a' then 0x07
  else if letter = byte 'b' then 0x08
  else if letter = byte 'f' then 0x0C
  else if letter = byte 'n' then 0x0A
  else if letter = byte 'r' then 0x0D
  else if letter = byte 't' then 0x09
  else if letter = byte 'v' then 0x0B
  else letter

/-- The character with the number that a text begins with, in `width` digits. -/
def readCode (width : Nat) (text : Bytes) : Bytes × Bytes :=
  (String.utf8EncodeChar (Char.ofNat (Hex.number (text.take width))), text.drop width)

/-- Reads the escape with the given letter. -/
def readEscape (letter : UInt8) (text : Bytes) : Bytes × Bytes :=
  if letter = byte 'x' then ([(Hex.number (text.take 2)).toUInt8], text.drop 2)
  else if letter = byte 'u' then readCode 4 text
  else if letter = byte 'U' then readCode 8 text
  else ([shortByte letter], text)

/-- The unit whose form a text begins with, and the text behind that form. -/
def readUnit : Bytes → Bytes × Bytes
  | [] => ([], [])
  | b :: rest =>
      if b = byte '\\' then readEscape (rest.headD 0) rest.tail
      else ((b :: rest).take (Utf8.width (b :: rest)), (b :: rest).drop (Utf8.width (b :: rest)))

theorem readUnit_escape (letter : UInt8) (rest : Bytes) :
    readUnit (byte '\\' :: letter :: rest) = readEscape letter rest := by
  rw [readUnit, if_pos rfl, List.headD_cons, List.tail_cons]

theorem readUnit_byte {n : Nat} (small : n < 256) (rest : Bytes) :
    readUnit (bytes "\\x" ++ Hex.digits Hex.lowerDigit 2 n ++ rest) = ([n.toUInt8], rest) := by
  have start : bytes "\\x" = [byte '\\', byte 'x'] := by decide
  rw [start, List.append_assoc]
  simp only [List.cons_append, List.nil_append, readUnit_escape, readEscape, if_pos]
  rw [Hex.number_take_digits small, Hex.drop_digits]

theorem readCode_digits {width : Nat} {char : Char} (fits : char.toNat < 16 ^ width)
    (rest : Bytes) :
    readCode width (Hex.digits Hex.lowerDigit width char.toNat ++ rest) =
      (String.utf8EncodeChar char, rest) := by
  rw [readCode, Hex.number_take_digits fits, Hex.drop_digits, Char.ofNat_toNat]

/-- A character that is not escaped is read as it stands. -/
theorem readUnit_plain {char : Char} (plain : char ≠ '\\') (rest : Bytes) :
    readUnit (String.utf8EncodeChar char ++ rest) = (String.utf8EncodeChar char, rest) := by
  have width := Utf8.width_encode_append char rest
  obtain ⟨lead, tail, shape, -⟩ := Utf8.encode_shape char
  have notEscape : lead ≠ byte '\\' := by
    rintro rfl
    have same := Utf8.toNat_of_ascii shape (by decide)
    exact plain (Char.toNat_inj.mp same)
  rw [shape] at width ⊢
  rw [List.cons_append] at width ⊢
  rw [readUnit, if_neg notEscape, width]
  simp

theorem shortEscape?_eq_some {n : Nat} {letter : Char} (known : shortEscape? n = some letter) :
    n < 0x80 ∧ readEscape (byte letter) = fun rest => ([n.toUInt8], rest) := by
  unfold shortEscape? at known
  split at known
  all_goals first | cases known; exact ⟨by decide, rfl⟩ | cases known

theorem readUnit_char (char : Char) (rest : Bytes) :
    readUnit (Quoted.char char ++ rest) = (String.utf8EncodeChar char, rest) := by
  have bound := Utf8.code_range char
  have code : char.val.toNat = char.toNat := rfl
  rw [code] at bound
  have ascii (small : char.toNat < 0x80) :
      String.utf8EncodeChar char = [char.toNat.toUInt8] := by
    simp only [String.utf8EncodeChar, code]
    rw [if_pos (by omega)]
  unfold Quoted.char
  dsimp only
  split
  · next marked =>
      simp only [Bool.or_eq_true, beq_iff_eq] at marked
      rcases marked with rfl | rfl <;> rfl
  next unmarked =>
    simp only [Bool.or_eq_true, beq_iff_eq, not_or] at unmarked
    split
    · exact readUnit_plain unmarked.2 rest
    split
    · next letter short =>
        obtain ⟨small, read⟩ := shortEscape?_eq_some short
        rw [List.cons_append, List.cons_append, readUnit_escape, read, ascii small]
        rfl
    split
    · next small => rw [readUnit_byte (by omega), ascii small]
    split
    · next small =>
        have start : bytes "\\u" = [byte '\\', byte 'u'] := by decide
        rw [start, List.append_assoc, List.cons_append, List.cons_append, readUnit_escape]
        exact readCode_digits (by omega) rest
    · have start : bytes "\\U" = [byte '\\', byte 'U'] := by decide
      rw [start, List.append_assoc, List.cons_append, List.cons_append, readUnit_escape]
      exact readCode_digits (by omega) rest

theorem readUnit_unit {unit : Bytes × Option Char} (isUnit : Utf8.IsUnit unit) (rest : Bytes) :
    readUnit (Quoted.unit unit ++ rest) = (unit.1, rest) := by
  rcases isUnit with ⟨char, rfl⟩ | ⟨b, rfl⟩
  · exact readUnit_char char rest
  · have byteForm := readUnit_byte b.toNat_lt rest
    simpa [Quoted.unit] using byteForm

theorem char_eq_cons (char : Char) : ∃ b tail, Quoted.char char = b :: tail ∧ b ≠ byte '"' := by
  unfold Quoted.char
  dsimp only
  split
  · exact ⟨_, _, rfl, by decide⟩
  next unmarked =>
    simp only [Bool.or_eq_true, beq_iff_eq, not_or] at unmarked
    split
    · obtain ⟨lead, tail, shape, -⟩ := Utf8.encode_shape char
      refine ⟨lead, tail, shape, ?_⟩
      rintro rfl
      exact unmarked.1 (Char.toNat_inj.mp (Utf8.toNat_of_ascii shape (by decide)))
    split
    · exact ⟨_, _, rfl, by decide⟩
    · repeat' split
      all_goals exact ⟨byte '\\', _, rfl, by decide⟩

theorem unit_eq_cons {unit : Bytes × Option Char} (isUnit : Utf8.IsUnit unit) :
    ∃ b tail, Quoted.unit unit = b :: tail ∧ b ≠ byte '"' := by
  rcases isUnit with ⟨char, rfl⟩ | ⟨b, rfl⟩
  · exact char_eq_cons char
  · exact ⟨byte '\\', _, rfl, by decide⟩

/-- Units whose forms are the same up to the closing quote are the same bytes. -/
theorem flatMap_unit_inj {left right : List (Bytes × Option Char)} {first second : Bytes}
    (leftUnits : ∀ unit ∈ left, Utf8.IsUnit unit) (rightUnits : ∀ unit ∈ right, Utf8.IsUnit unit)
    (same : left.flatMap Quoted.unit ++ byte '"' :: first =
      right.flatMap Quoted.unit ++ byte '"' :: second) :
    left.flatMap (·.1) = right.flatMap (·.1) ∧ first = second := by
  -- a closing quote on one side meets the closing quote on the other, since no form begins so
  induction left generalizing right with
  | nil =>
      cases right with
      | nil => simpa using same
      | cons unit right =>
          obtain ⟨b, tail, form, differs⟩ := unit_eq_cons (rightUnits unit List.mem_cons_self)
          simp only [List.flatMap_cons, form, List.flatMap_nil, List.nil_append,
            List.cons_append, List.cons.injEq] at same
          exact absurd same.1.symm differs
  | cons unit left ih =>
      have isUnit := leftUnits unit List.mem_cons_self
      cases right with
      | nil =>
          obtain ⟨b, tail, form, differs⟩ := unit_eq_cons isUnit
          simp only [List.flatMap_cons, form, List.flatMap_nil, List.nil_append,
            List.cons_append, List.cons.injEq] at same
          exact absurd same.1 differs
      | cons other right =>
          rw [List.flatMap_cons, List.flatMap_cons, List.append_assoc, List.append_assoc] at same
          have read := congrArg readUnit same
          rw [readUnit_unit isUnit, readUnit_unit (rightUnits other List.mem_cons_self)] at read
          obtain ⟨sameBytes, sameRest⟩ := Prod.mk.inj read
          obtain ⟨later, rest⟩ := ih
            (fun unit member => leftUnits unit (List.mem_cons_of_mem _ member))
            (fun unit member => rightUnits unit (List.mem_cons_of_mem _ member)) sameRest
          exact ⟨by rw [List.flatMap_cons, List.flatMap_cons, sameBytes, later], rest⟩

/-- A quoted text is determined by any text that begins with it. -/
theorem quote_append_inj {left right first second : Bytes}
    (same : quote left ++ first = quote right ++ second) : left = right ∧ first = second := by
  simp only [quote, List.cons_append, List.append_assoc, List.cons.injEq, true_and,
    List.nil_append] at same
  obtain ⟨texts, rest⟩ := flatMap_unit_inj (fun _ => Utf8.isUnit_of_mem_units)
    (fun _ => Utf8.isUnit_of_mem_units) same
  rw [Utf8.units_flatMap, Utf8.units_flatMap] at texts
  exact ⟨texts, rest⟩

end Quoted

end Stencil
