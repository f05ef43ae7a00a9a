import Stencil.Proofs.ChangeListing
import Stencil.Proofs.CleanPath
import Stencil.Proofs.Utf8
import Stencil.Report.Diff

/-!
# Reading the changes that are shown

Without colours every line that is shown below the heading can be read back: its number,
whether the line was kept, removed or added, and the line itself.  So what holds of the
listing holds of the text that is shown.
-/

namespace Stencil

namespace Bytes

/-- The character of a byte. -/
def toChar (b : UInt8) : Char :=
  Char.ofNat b.toNat

/-- The byte of a decimal digit. -/
def isDigit (b : UInt8) : Bool :=
  (toChar b).isDigit

/-- The number that decimal digits write. -/
def number (digits : Bytes) : Nat :=
  Nat.ofDigitChars 10 (digits.map toChar) 0

theorem toChar_byte {char : Char} (ascii : char.toNat < 0x80) : toChar (byte char) = char := by
  have small : char.toNat.toUInt8.toNat = char.toNat := by
    rw [Nat.toUInt8, UInt8.toNat_ofNat']
    omega
  rw [toChar, byte, small, Char.ofNat_toNat]

theorem ascii_of_mem_toDigits {n : Nat} {char : Char} (member : char ∈ Nat.toDigits 10 n) :
    char.isDigit = true ∧ char.toNat < 0x80 := by
  have digit := Nat.isDigit_of_mem_toDigits (by decide) (by decide) member
  have bounds := digit
  simp only [Char.isDigit, Bool.and_eq_true, decide_eq_true_eq] at bounds
  have last : char.toNat ≤ 57 := UInt32.le_iff_toNat_le.mp bounds.2
  exact ⟨digit, by omega⟩

theorem ofNat_eq_map (n : Nat) : ofNat n = (Nat.toDigits 10 n).map byte := by
  rw [ofNat, Utf8.bytes_eq_encode, Nat.toString_eq_ofList_toDigits, String.toList_ofList,
    Utf8.encode]
  have ascii : ∀ char ∈ Nat.toDigits 10 n, char.toNat < 0x80 :=
    fun _ member => (ascii_of_mem_toDigits member).2
  generalize Nat.toDigits 10 n = chars at ascii
  induction chars with
  | nil => rfl
  | cons char chars ih =>
      obtain ⟨first, later⟩ := List.forall_mem_cons.mp ascii
      rw [List.flatMap_cons, Utf8.encode_of_ascii first, ih later]
      rfl

/-- A number can be read back from its digits. -/
theorem number_ofNat (n : Nat) : number (ofNat n) = n := by
  have back : (ofNat n).map toChar = Nat.toDigits 10 n := by
    rw [ofNat_eq_map, List.map_map]
    refine Eq.trans (List.map_congr_left ?_) (List.map_id _)
    intro char member
    exact toChar_byte (ascii_of_mem_toDigits member).2
  rw [number, back, Nat.ofDigitChars_ten_toDigits]

theorem isDigit_of_mem_ofNat {n : Nat} {b : UInt8} (member : b ∈ ofNat n) : isDigit b = true := by
  rw [ofNat_eq_map] at member
  obtain ⟨char, isDigit, rfl⟩ := List.mem_map.mp member
  obtain ⟨digit, ascii⟩ := ascii_of_mem_toDigits isDigit
  rw [Bytes.isDigit, toChar_byte ascii]
  exact digit

theorem ofNat_ne_nil (n : Nat) : ofNat n ≠ [] := by
  rw [ofNat_eq_map]
  exact mt List.map_eq_nil_iff.mp Nat.toDigits_ne_nil

end Bytes

namespace Report

/-- What a mark in front of a line says about the line. -/
def kind? (mark : UInt8) : Option (Nat → Bytes → Diff.Entry) :=
  if mark = byte ' ' then some .kept
  else if mark = byte '-' then some .removed
  else if mark = byte '+' then some .added
  else none

/-- Reads a line that is shown without colours. -/
def readLine? (text : Bytes) : Option Diff.Entry :=
  let behind := text.dropWhile (· == byte ' ')
  let digits := behind.takeWhile Bytes.isDigit
  if digits = [] then if text = bytes "..." then some .gap else none
  else
    match behind.dropWhile Bytes.isDigit with
    | a :: b :: c :: mark :: line =>
        if [a, b, c] = bytes " | " then
          (kind? mark).map fun entry => entry (Bytes.number digits) line
        else none
    | _ => none

/-- The line for an entry, without colours and without the line break. -/
def entryText : Diff.Entry → Bytes
  | .gap => bytes "..."
  | .kept number line => lineNumber number ++ bytes " | " ++ byte ' ' :: line
  | .removed number line => lineNumber number ++ bytes " | " ++ byte '-' :: line
  | .added number line => lineNumber number ++ bytes " | " ++ byte '+' :: line

theorem changeLine_eq (entry : Diff.Entry) :
    changeLine false entry = entryText entry ++ [byte '\n'] := by
  cases entry <;> rfl

section Numbered

variable (number : Nat) (rest : Bytes)

theorem dropWhile_lineNumber :
    (lineNumber number ++ rest).dropWhile (· == byte ' ') = Bytes.ofNat number ++ rest := by
  obtain ⟨b, digits, shape⟩ := List.exists_cons_of_ne_nil (Bytes.ofNat_ne_nil number)
  have first : b ∈ Bytes.ofNat number := shape ▸ List.mem_cons_self
  have digit := Bytes.isDigit_of_mem_ofNat first
  rw [lineNumber, List.append_assoc, List.dropWhile_append_of_pos]
  · rw [shape, List.cons_append, List.dropWhile_cons_of_neg]
    intro isSpace
    rw [beq_iff_eq.mp isSpace] at digit
    revert digit
    decide
  · intro b member
    rw [List.eq_of_mem_replicate member]
    decide

/-- A numbered line can be read back. -/
theorem readLine?_numbered {mark : UInt8} {entry : Nat → Bytes → Diff.Entry}
    (kind : kind? mark = some entry) :
    readLine? (lineNumber number ++ bytes " | " ++ mark :: rest) = some (entry number rest) := by
  have digits : ∀ b ∈ Bytes.ofNat number, Bytes.isDigit b = true :=
    fun _ => Bytes.isDigit_of_mem_ofNat
  have separator :
      bytes " | " ++ mark :: rest = byte ' ' :: byte '|' :: byte ' ' :: mark :: rest := rfl
  have notDigit : ¬ Bytes.isDigit (byte ' ') = true := by decide
  unfold readLine?
  rw [List.append_assoc, dropWhile_lineNumber]
  dsimp only
  rw [List.takeWhile_append_of_pos digits, List.dropWhile_append_of_pos digits, separator,
    List.takeWhile_cons_of_neg notDigit, List.dropWhile_cons_of_neg notDigit, List.append_nil,
    if_neg (Bytes.ofNat_ne_nil number)]
  have matching : [byte ' ', byte '|', byte ' '] = bytes " | " := rfl
  simp only [matching, if_true, kind, Option.map_some, Bytes.number_ofNat]

end Numbered

theorem readLine?_entryText (entry : Diff.Entry) : readLine? (entryText entry) = some entry := by
  cases entry with
  | gap => decide
  | kept number line => exact readLine?_numbered number line rfl
  | removed number line => exact readLine?_numbered number line rfl
  | added number line => exact readLine?_numbered number line rfl

end Report

namespace Diff

section Lines

variable {text : Bytes}

/-- The lines of a text that does not end with a line break. -/
theorem linesOf_eq_splitOn (filled : text ≠ []) (open' : text.getLast? ≠ some (byte '\n')) :
    linesOf text = Bytes.splitOn (byte '\n') text := by
  simp [linesOf, filled, open']

/-- A line break at the end of a text ends its last line. -/
theorem linesOf_append_break (text : Bytes) :
    linesOf (text ++ [byte '\n']) = Bytes.splitOn (byte '\n') text := by
  have ended : Bytes.splitOn (byte '\n') (text ++ [byte '\n']) =
      Bytes.splitOn (byte '\n') text ++ [[]] := Bytes.splitOn_append _ text []
  simp [linesOf, ended]

theorem not_mem_of_mem_linesOf {line : Bytes} (member : line ∈ linesOf text) :
    byte '\n' ∉ line := by
  unfold linesOf at member
  split at member
  · cases member
  split at member
  · exact Bytes.not_mem_of_mem_splitOn ((List.dropLast_sublist _).subset member)
  · exact Bytes.not_mem_of_mem_splitOn member

theorem splitOn_flatMap {lines : List Bytes} (unbroken : ∀ line ∈ lines, byte '\n' ∉ line)
    (rest : Bytes) :
    Bytes.splitOn (byte '\n') (lines.flatMap (· ++ [byte '\n']) ++ rest) =
      lines ++ Bytes.splitOn (byte '\n') rest := by
  induction lines with
  | nil => rfl
  | cons line lines ih =>
      obtain ⟨first, later⟩ := List.forall_mem_cons.mp unbroken
      rw [List.flatMap_cons, List.append_assoc, List.append_assoc, List.singleton_append,
        Bytes.splitOn_append, Bytes.splitOn_of_not_mem first, ih later]
      rfl

theorem linesOf_flatMap {lines : List Bytes} (unbroken : ∀ line ∈ lines, byte '\n' ∉ line) :
    linesOf (lines.flatMap (· ++ [byte '\n'])) = lines := by
  obtain rfl | ⟨front, last, rfl⟩ := List.eq_nil_or_concat lines
  · rfl
  · rw [List.concat_eq_append] at unbroken ⊢
    obtain ⟨others, final⟩ := List.forall_mem_append.mp unbroken
    rw [List.flatMap_append, List.flatMap_singleton, ← List.append_assoc, linesOf_append_break,
      splitOn_flatMap others, Bytes.splitOn_of_not_mem (final last List.mem_cons_self)]

/-- A text and the same text with a line break that ends its last line. -/
def BreakAdded (text longer : Bytes) : Prop :=
  text ≠ [] ∧ text.getLast? ≠ some (byte '\n') ∧ longer = text ++ [byte '\n']

theorem BreakAdded.linesOf_eq {longer : Bytes} (added : BreakAdded text longer) :
    linesOf longer = linesOf text := by
  obtain ⟨filled, unended, rfl⟩ := added
  rw [linesOf_append_break, linesOf_eq_splitOn filled unended]

theorem BreakAdded.ne {longer : Bytes} (added : BreakAdded text longer) : text ≠ longer := by
  rw [added.2.2]
  simp

/-- The lines of a text that is not empty are those of its part in front of a line break
at its end. -/
theorem linesOf_cases (filled : text ≠ []) :
    ∃ part, linesOf text = Bytes.splitOn (byte '\n') part ∧
      (text = part ∧ part.getLast? ≠ some (byte '\n') ∨ text = part ++ [byte '\n']) := by
  by_cases ended : text.getLast? = some (byte '\n')
  · obtain ⟨part, rfl⟩ := List.getLast?_eq_some_iff.mp ended
    exact ⟨part, linesOf_append_break part, .inr rfl⟩
  · exact ⟨text, linesOf_eq_splitOn filled ended, .inl ⟨rfl, ended⟩⟩

theorem linesOf_eq_nil_iff : linesOf text = [] ↔ text = [] := by
  constructor
  · intro none
    apply Classical.byContradiction
    intro filled
    obtain ⟨part, lines, -⟩ := linesOf_cases filled
    obtain ⟨first, others, split⟩ := Bytes.splitOn_eq_cons (byte '\n') part
    rw [none, split] at lines
    cases lines
  · rintro rfl
    rfl

/-- Texts with the same lines differ by the line break that ends the last line, if they
differ at all. -/
theorem linesOf_eq_iff {old new : Bytes} :
    linesOf old = linesOf new ↔ old = new ∨ BreakAdded old new ∨ BreakAdded new old := by
  constructor
  · intro same
    by_cases oldEmpty : old = []
    · subst oldEmpty
      exact .inl (linesOf_eq_nil_iff.mp same.symm).symm
    by_cases newEmpty : new = []
    · subst newEmpty
      exact .inl (linesOf_eq_nil_iff.mp same)
    obtain ⟨part, oldLines, oldEnd⟩ := linesOf_cases oldEmpty
    obtain ⟨other, newLines, newEnd⟩ := linesOf_cases newEmpty
    rw [oldLines, newLines, Bytes.splitOn_inj] at same
    subst same
    obtain ⟨rfl, unended⟩ | rfl := oldEnd <;> obtain ⟨rfl, newUnended⟩ | rfl := newEnd
    · exact .inl rfl
    · exact .inr (.inl ⟨oldEmpty, unended, rfl⟩)
    · exact .inr (.inr ⟨newEmpty, newUnended, rfl⟩)
    · exact .inl rfl
  · rintro (rfl | added | added)
    · rfl
    · exact added.linesOf_eq.symm
    · exact added.linesOf_eq

/-- Nothing is listed for texts with the same lines. -/
theorem changes_of_same_lines {old new : Bytes} (same : linesOf old = linesOf new)
    (around : Int) : changes old new around = [] := by
  rw [changes, same]
  obtain none | kept := script_self (linesOf new)
  · rw [none]
    rfl
  · rw [kept]
    rfl

/-- A change is listed for texts with different lines. -/
theorem change_of_faithful {a b : List Bytes} {around : Nat} {entries : List Entry}
    (faithful : Faithful a b around entries) (differ : a ≠ b) :
    ∃ entry ∈ entries, entry.isChange = true := by
  apply Classical.byContradiction
  intro unchanged
  have removed : entries.filterMap (Entry.number? .old) = [] := by
    rw [List.filterMap_eq_nil_iff]
    intro entry member
    cases entry with
    | removed number line => exact absurd ⟨_, member, rfl⟩ unchanged
    | _ => rfl
  have added : entries.filterMap Entry.added? = [] := by
    rw [List.filterMap_eq_nil_iff]
    intro entry member
    cases entry with
    | added number line => exact absurd ⟨_, member, rfl⟩ unchanged
    | _ => rfl
  have same := faithful.same_rest
  rw [removed, added, withoutFrom_nil, withoutFrom_nil] at same
  exact differ same

end Lines

end Diff

namespace Report

theorem break_not_mem_lineNumber (number : Nat) : byte '\n' ∉ lineNumber number := by
  intro member
  rcases List.mem_append.mp member with space | digit
  · have same := List.eq_of_mem_replicate space
    revert same
    decide
  · have isDigit := Bytes.isDigit_of_mem_ofNat digit
    revert isDigit
    decide

theorem break_not_mem_numbered {number : Nat} {mark : UInt8} {line : Bytes}
    (unmarked : byte '\n' ≠ mark) (unbroken : byte '\n' ∉ line) :
    byte '\n' ∉ lineNumber number ++ bytes " | " ++ mark :: line := by
  have separator : byte '\n' ∉ bytes " | " := by decide
  simp [break_not_mem_lineNumber, separator, unmarked, unbroken]

/-- Every entry of a listing that can be relied on has one line of the text. -/
theorem break_not_mem_entryText {old new : Bytes} {around : Nat} {entries : List Diff.Entry}
    (faithful : Diff.Faithful (Diff.linesOf old) (Diff.linesOf new) around entries)
    {entry : Diff.Entry} (member : entry ∈ entries) : byte '\n' ∉ entryText entry := by
  cases entry with
  | gap => decide
  | kept number line =>
      have found := Diff.mem_of_lineAt? (faithful.kept number line member)
      exact break_not_mem_numbered (by decide) (Diff.not_mem_of_mem_linesOf found)
  | removed number line =>
      have found := Diff.mem_of_lineAt? (faithful.removed number line member)
      exact break_not_mem_numbered (by decide) (Diff.not_mem_of_mem_linesOf found)
  | added number line =>
      have found := Diff.mem_of_lineAt? (faithful.added number line member)
      exact break_not_mem_numbered (by decide) (Diff.not_mem_of_mem_linesOf found)

/-- The lines below the heading read as the entries of the listing. -/
theorem readLines_changes (old new : Bytes) (around : Int) :
    (Diff.linesOf ((Diff.changes old new around).flatMap (changeLine false))).map readLine? =
      (Diff.changes old new around).map some := by
  have faithful := Diff.changes_faithful old new around
  generalize Diff.changes old new around = entries at faithful
  have texts : entries.flatMap (changeLine false) =
      (entries.map entryText).flatMap (· ++ [byte '\n']) := by
    rw [List.flatMap_map]
    exact congrArg entries.flatMap (funext changeLine_eq)
  have unbroken : ∀ text ∈ entries.map entryText, byte '\n' ∉ text := by
    intro text member
    obtain ⟨entry, entryMember, rfl⟩ := List.mem_map.mp member
    exact break_not_mem_entryText faithful entryMember
  rw [texts, Diff.linesOf_flatMap unbroken, List.map_map]
  exact List.map_congr_left fun entry _ => readLine?_entryText entry

/-- The changes that are shown without colours are the changes of the text.  Below the
heading there is one line for each entry of a listing that can be relied on. -/
theorem diff_faithful (path old new : Bytes) (around : Int) :
    ∃ body entries,
      diff false path old new around =
        (if old = new then [] else diffHeading false path) ++ body ∧
      (Diff.linesOf body).map readLine? = entries.map some ∧
      Diff.Faithful (Diff.linesOf old) (Diff.linesOf new) around.toNat entries := by
  unfold diff
  split
  · next same =>
      subst same
      refine ⟨[], [], rfl, rfl, ?_⟩
      exact Diff.faithful_of_walks (.done rfl) trivial
  · exact ⟨_, _, rfl, readLines_changes old new around, Diff.changes_faithful old new around⟩

theorem changeLine_ne_nil (color : Bool) (entry : Diff.Entry) : changeLine color entry ≠ [] := by
  cases entry <;> simp [changeLine, numberedLine]

/-- Something is shown as removed or added, below the heading. -/
def ShowsChange (color : Bool) (path text : Bytes) : Prop :=
  ∃ entries : List Diff.Entry,
    text = diffHeading color path ++ entries.flatMap (changeLine color) ∧
      ∃ entry ∈ entries, entry.isChange = true

theorem not_showsChange_nil (color : Bool) (path : Bytes) : ¬ ShowsChange color path [] := by
  rintro ⟨entries, shown, -⟩
  simp [diffHeading] at shown

theorem not_showsChange_heading (color : Bool) (path : Bytes) :
    ¬ ShowsChange color path (diffHeading color path) := by
  rintro ⟨entries, shown, entry, member, -⟩
  have nothing := List.append_cancel_left ((List.append_nil _).trans shown)
  exact changeLine_ne_nil color entry (List.flatMap_eq_nil_iff.mp nothing.symm entry member)

theorem diff_of_same_lines {old new : Bytes} (differ : old ≠ new)
    (same : Diff.linesOf old = Diff.linesOf new) (color : Bool) (path : Bytes) (around : Int) :
    diff color path old new around = diffHeading color path := by
  rw [diff, if_neg differ, Diff.changes_of_same_lines same]
  exact List.append_nil _

/-- A removed or an added line is shown exactly when the texts differ by more than the line
break that ends the last line.  When they differ by that, nothing is shown below the
heading. -/
theorem diff_showsChange_iff (color : Bool) (path old new : Bytes) (around : Int) :
    (ShowsChange color path (diff color path old new around) ↔
        old ≠ new ∧ ¬ Diff.BreakAdded old new ∧ ¬ Diff.BreakAdded new old) ∧
      (Diff.BreakAdded old new ∨ Diff.BreakAdded new old →
        diff color path old new around = diffHeading color path) := by
  have heading : Diff.BreakAdded old new ∨ Diff.BreakAdded new old →
      diff color path old new around = diffHeading color path := by
    intro added
    have same := Diff.linesOf_eq_iff.mpr (.inr added)
    apply diff_of_same_lines _ same
    rcases added with added | added
    · exact added.ne
    · exact added.ne.symm
  refine ⟨⟨?_, ?_⟩, heading⟩
  · intro shows
    refine ⟨?_, ?_, ?_⟩
    · rintro rfl
      rw [diff, if_pos rfl] at shows
      exact not_showsChange_nil color path shows
    · intro added
      rw [heading (.inl added)] at shows
      exact not_showsChange_heading color path shows
    · intro added
      rw [heading (.inr added)] at shows
      exact not_showsChange_heading color path shows
  · rintro ⟨differ, notAdded, notTaken⟩
    have lines : Diff.linesOf old ≠ Diff.linesOf new := by
      intro same
      rcases Diff.linesOf_eq_iff.mp same with equal | added | taken
      · exact differ equal
      · exact notAdded added
      · exact notTaken taken
    refine ⟨Diff.changes old new around, ?_, ?_⟩
    · rw [diff, if_neg differ]
    · exact Diff.change_of_faithful (Diff.changes_faithful old new around) lines

/-- A line break at the end of a text is a change that is not shown. -/
theorem diff_hides_final_break :
    bytes "a" ≠ bytes "a\n" ∧
      diff false (bytes "f.txt") (bytes "a") (bytes "a\n") 1 = bytes "--- f.txt\n+++ f.txt\n" := by
  decide

end Report

end Stencil
