import Stencil.Proofs.TomlText
import Stencil.Proofs.YamlLines

/-!
# YAML texts are read back

Whichever style a text is written in, its line is read as one token, unless the
style is a literal and the text begins with a character that a literal cannot
keep.  What is written holds no character that a stream may not hold.
-/

namespace Stencil.Yaml

/-! ## Styles -/

namespace Style

theorem ofText_cases (text : List Char) :
    (ofText text = .plain ∧ readsAsString text = true ∧ plainAllowed text = true) ∨
      (ofText text = .single ∧ singleAllowed text = true ∧ '\n' ∉ text) ∨
        ofText text = .double ∨ (ofText text = .literal ∧ literalAllowed text = true) := by
  unfold ofText
  split
  · split
    · next allowed => exact .inr (.inr (.inr ⟨rfl, allowed⟩))
    · exact .inr (.inr (.inl rfl))
  · next oneLine =>
      split
      · exact .inr (.inr (.inl rfl))
      · next reads =>
          split
          · next allowed => exact .inl ⟨rfl, by simpa using reads, allowed⟩
          · split
            · next allowed => exact .inr (.inl ⟨rfl, allowed, by simpa using oneLine⟩)
            · exact .inr (.inr (.inl rfl))

/-- A text that is read back from the style it is written in.  Only a literal can be read
differently, and only for its first character; `stepped` says whether it is indented by the
step that its header may name. -/
def Recoverable (stepped : Bool) (text : List Char) : Prop :=
  ofText text = .literal → ∀ first ∈ text.head?,
    isBreak first = false ∧ first ≠ '\t' ∧ (first = ' ' → stepped = true)

instance (stepped : Bool) (text : List Char) : Decidable (Recoverable stepped text) :=
  have : Decidable (∀ first ∈ text.head?,
      isBreak first = false ∧ first ≠ '\t' ∧ (first = ' ' → stepped = true)) :=
    Option.decidableForallMem text.head?
  inferInstanceAs (Decidable (_ → _))

end Style

section Styled

variable {indent limit : Nat} {text : List Char}

theorem endLine_of_last {char : Char} (noBreak : isBreak char = false) (front : List Char) :
    endLine (front ++ [char]) = front ++ [char] ++ ['\n'] := by
  simp [endLine, noBreak]

/-- A text is read back as it was written. -/
theorem scalarLine_styled (inside : limit < indent)
    (recoverable : Style.Recoverable (limit + 4 == indent) text) :
    Lexer.ScalarLine limit (endLine (styled indent (Style.ofText text) text))
      (.scalar (Style.ofText text == .plain) text) := by
  rcases Style.ofText_cases text with ⟨style, reads, allowed⟩ | ⟨style, allowed, oneLine⟩ | style |
    ⟨style, allowed⟩
  · have filled : text ≠ [] := by
      rintro rfl
      revert reads
      decide
    have noBreak : text.any isBreak = false := by
      simp only [Style.plainAllowed, Bool.not_eq_true', Bool.or_eq_false_iff] at allowed
      exact allowed.1.1.1.1.2
    have written : endLine text = text ++ ['\n'] := by
      have last := List.dropLast_concat_getLast filled
      have lastNoBreak := List.any_eq_false.mp noBreak _ (List.getLast_mem filled)
      rw [← last]
      exact endLine_of_last (by simpa using lastNoBreak) _
    rw [style, styled, written]
    exact Lexer.scalarLine_plain filled allowed
  · have written : endLine (singleQuoted indent text) =
        '\'' :: (singleContent indent false text ++ ['\''] ++ ['\n']) :=
      endLine_of_last rfl ('\'' :: singleContent indent false text)
    rw [style, styled, written]
    exact Lexer.scalarLine_single (Nat.zero_lt_of_lt inside)
      (Style.folds_of_singleAllowed allowed oneLine)
  · have written : endLine (doubleQuoted text) =
        '"' :: (doubleContent (text.head? == some '\ufeff') text ++ ['"'] ++ ['\n']) :=
      endLine_of_last rfl ('"' :: doubleContent (text.head? == some '\ufeff') text)
    rw [style, styled, written]
    exact Lexer.scalarLine_double _
  · have filled : text ≠ [] := by
      rintro rfl
      cases style
    obtain ⟨first, more, rfl⟩ := List.exists_cons_of_ne_nil filled
    obtain ⟨noBreak, noTab, step⟩ := recoverable style first rfl
    obtain ⟨content, trail, laid⟩ := Laid.of_head noBreak more
    rw [style, styled]
    apply Lexer.scalarLine_literal laid (by simpa using noTab) _ inside
    intro space
    exact beq_iff_eq.mp (step (Option.some.inj space))

end Styled

/-! ## Characters -/

/-- Nothing but characters that need no escape, and tabs. -/
def Clean (text : List Char) : Prop :=
  ∀ char ∈ text, Style.isSpecial char = false

instance (text : List Char) : Decidable (Clean text) :=
  List.decidableBAll (fun char => Style.isSpecial char = false) text

section Clean

variable {text : List Char}

theorem Clean.cons {char : Char} (first : Style.isSpecial char = false) (later : Clean text) :
    Clean (char :: text) :=
  List.forall_mem_cons.mpr ⟨first, later⟩

theorem Clean.append {first second : List Char} (left : Clean first) (right : Clean second) :
    Clean (first ++ second) := by
  intro char member
  rcases List.mem_append.mp member with inFirst | inSecond
  · exact left char inFirst
  · exact right char inSecond

theorem clean_replicate (count : Nat) : Clean (List.replicate count ' ') := by
  intro char member
  rw [List.eq_of_mem_replicate member]
  rfl

theorem isAllowed_of_clean {char : Char} (clean : Style.isSpecial char = false) :
    isAllowed char = true ∧ char ≠ '\r' ∧ char ≠ '\u0085' := by
  refine ⟨?_, ?_, ?_⟩
  · by_cases tab : char = '\t'
    · rw [tab]
      rfl
    · have plain : Style.isPlainChar char = true := by simpa [Style.isSpecial, tab] using clean
      simp only [Style.isPlainChar, isAllowed, Bool.or_eq_true, Bool.and_eq_true, beq_iff_eq,
        decide_eq_true_eq] at plain ⊢
      omega
  · rintro rfl
    cases clean
  · rintro rfl
    cases clean

theorem unifyBreaks_of_clean (clean : Clean text) : unifyBreaks text = text := by
  induction text with
  | nil => rfl
  | cons char text ih =>
      obtain ⟨first, later⟩ := List.forall_mem_cons.mp clean
      obtain ⟨-, noReturn, noNext⟩ := isAllowed_of_clean first
      rw [unifyBreaks]
      · simp [noReturn, noNext, ih later]
      · rintro _ rfl
        exact absurd rfl noReturn

/-- A stream of clean characters is decoded as it was written. -/
theorem source?_encode {first : Char} (ascii : first.toNat < 0x80) (clean : Clean (first :: text)) :
    source? (Utf8.encode (first :: text)) = some (first :: text) := by
  have unmarked : ∀ mark : UInt8, 0x80 ≤ mark → byte first ≠ mark := by
    rintro mark wide rfl
    have value : (byte first).toNat = first.toNat := Nat.mod_eq_of_lt (by omega)
    have wide' : 0x80 ≤ (byte first).toNat := UInt8.le_iff_toNat_le.mp wide
    omega
  have decoded : decode? (Utf8.encode (first :: text)) = some (first :: text) := by
    have whole := Utf8.decode?_encode (first :: text)
    rw [Utf8.encode_cons, Utf8.encode_of_ascii ascii, List.singleton_append] at whole ⊢
    unfold decode?
    split
    · next same => exact absurd (List.cons.inj same).1 (unmarked _ (by decide))
    · next same => exact absurd (List.cons.inj same).1 (unmarked _ (by decide))
    · next same => exact absurd (List.cons.inj same).1 (unmarked _ (by decide))
    · exact whole
  have allowed : (first :: text).all isAllowed = true :=
    List.all_eq_true.mpr fun char member => (isAllowed_of_clean (clean char member)).1
  rw [source?, decoded]
  simp only [Option.bind_eq_bind, Option.bind_some, allowed, if_true, unifyBreaks_of_clean clean]

theorem clean_singleContent (indent : Nat) (lineStart : Bool) (clean : Clean text) :
    Clean (singleContent indent lineStart text) := by
  induction text generalizing lineStart with
  | nil => exact clean
  | cons char text ih =>
      obtain ⟨first, later⟩ := List.forall_mem_cons.mp clean
      have spaces : Clean (if lineStart then List.replicate indent ' ' else []) := by
        split
        · exact clean_replicate indent
        · simp [Clean]
      have unit : Clean (if char == '\'' then ['\'', '\''] else [char]) := by
        split
        · decide
        · simpa [Clean] using first
      rw [singleContent]
      split
      · exact (ih true later).cons first
      · exact (spaces.append unit).append (ih false later)

theorem clean_literalLines (indent : Nat) (place : LiteralPlace) (clean : Clean text) :
    Clean (literalLines indent place text) := by
  induction text generalizing place with
  | nil =>
      rw [literalLines]
      exact clean
  | cons char text ih =>
      obtain ⟨first, later⟩ := List.forall_mem_cons.mp clean
      have header : Clean ('\n' :: List.replicate indent ' ') :=
        (clean_replicate indent).cons rfl
      have inside : Clean (char :: literalLines indent .inside text) :=
        (ih .inside later).cons first
      cases ends : isBreak char with
      | true =>
          rw [literalLines_first_break ends]
          exact (ih .lineStart later).cons first
      | false =>
          cases place with
          | header =>
              rw [literalLines, ends]
              exact header.append inside
          | lineStart =>
              rw [literalLines, ends]
              exact (clean_replicate indent).append inside
          | inside =>
              rw [literalLines, ends]
              exact inside

theorem clean_hexDigits (width n : Nat) : Clean (hexDigits width n) := by
  have digit : ∀ n < 16, Style.isSpecial (Char.ofNat (Hex.upperDigit n).toNat) = false := by
    decide
  induction width with
  | zero => simp [hexDigits, Hex.digits, Clean]
  | succ width ih =>
      rw [hexDigits_succ]
      exact ih.cons (digit _ (Nat.mod_lt _ (by decide)))

theorem clean_escaped (char : Char) : Clean (escaped char) := by
  unfold escaped
  dsimp only
  split
  · next letter short =>
      have clean : Style.isSpecial letter = false := by
        unfold escapeOf? at short
        split at short <;> cases short <;> rfl
      simpa [Clean, Style.isSpecial, Style.isPlainChar] using clean
  · split
    · exact ((clean_hexDigits 2 _).cons rfl).cons rfl
    · split
      · exact ((clean_hexDigits 4 _).cons rfl).cons rfl
      · exact ((clean_hexDigits 8 _).cons rfl).cons rfl

theorem clean_doubleContent (marked : Bool) (text : List Char) :
    Clean (doubleContent marked text) := by
  intro char member
  obtain ⟨source, -, inUnit⟩ := List.mem_flatMap.mp member
  unfold doubleUnit at inUnit
  split at inUnit
  · exact clean_escaped source char inUnit
  · next raw =>
      obtain rfl := List.mem_singleton.mp inUnit
      simp only [Bool.not_eq_true, Bool.or_eq_false_iff, Bool.not_eq_false'] at raw
      simp [Style.isSpecial, raw.1.1.1.2]

theorem clean_styled (indent : Nat) (text : List Char) :
    Clean (endLine (styled indent (Style.ofText text) text)) := by
  have ended {written : List Char} (clean : Clean written) : Clean (endLine written) := by
    unfold endLine
    split
    · exact clean
    · exact clean.append (by decide)
  have kept (noSpecial : text.any Style.isSpecial = false) : Clean text := by
    simpa [Clean] using noSpecial
  apply ended
  rcases Style.ofText_cases text with ⟨style, -, allowed⟩ | ⟨style, allowed, -⟩ | style |
    ⟨style, allowed⟩
  · simp only [Style.plainAllowed, Bool.not_eq_true', Bool.or_eq_false_iff] at allowed
    rw [style]
    exact kept allowed.1.1.1.2
  · simp only [Style.singleAllowed, Bool.not_eq_true', Bool.or_eq_false_iff] at allowed
    rw [style]
    have content := clean_singleContent indent false (kept allowed.2)
    exact (content.cons rfl).append (by decide)
  · rw [style, styled, doubleQuoted_eq]
    have content := clean_doubleContent (text.head? == some '\ufeff') text
    exact (content.cons rfl).append (by decide)
  · simp only [Style.literalAllowed, Bool.not_eq_true', Bool.or_eq_false_iff] at allowed
    have marks : Clean ('|' :: indentMark text) := by
      unfold indentMark
      split <;> decide
    have chomp : Clean (chompMark text) := by
      unfold chompMark
      repeat' split
      all_goals decide
    rw [style]
    exact (marks.append chomp).append (clean_literalLines indent .header (kept allowed.2))

end Clean

theorem Lexer.Key.begins {word : List Char} (key : Lexer.Key word) (text : List Char) :
    Lexer.Begins (word ++ text) := by
  obtain ⟨first, more, rfl⟩ := List.exists_cons_of_ne_nil key.filled
  have letter := key.letters first List.mem_cons_self
  apply Lexer.begins_cons (Lexer.isGap_of_isKeyLetter letter)
  rintro rfl
  cases letter

namespace Frame

variable {frame : Frame} {column : Nat}

theorem leave_of_indent (same : frame.indent = column) : frame.leave column = frame := by
  obtain ⟨indent, outer, read⟩ := frame
  obtain rfl : indent = column := same
  cases outer with
  | nil => rfl
  | cons next outer => simp [leave, leaveAll]

theorem enter_of_indent (same : frame.indent = column) (token : Token) :
    frame.enter column token = frame := by
  rw [enter, same, if_neg (Int.lt_irrefl _)]

end Frame

end Stencil.Yaml
