import Stencil.Proofs.Quotation
import Stencil.RuleFile.Toml

/-!
# Lines of TOML

Between its quotes a character is written as it is, as a short escape or by its
code (`Spelled`), and the reader undoes any of the three.  A statement that has a
line to itself is read whatever follows (`Reads`), so a text made of such lines
is read as the list of their statements (`Lines.statements?_eq`).
-/

namespace Stencil

namespace Utf8

theorem not_ascii_of_mem_encode {char : Char} (wide : 0x80 ≤ char.toNat) {b : UInt8}
    (member : b ∈ String.utf8EncodeChar char) : 0x80 ≤ b.toNat := by
  obtain ⟨lead, tail, shape, _, continues⟩ := encode_shape char
  rw [shape] at member
  rcases List.mem_cons.mp member with rfl | later
  · apply Nat.le_of_not_lt
    intro small
    have same := toNat_of_ascii shape small
    omega
  · exact (isContinuation_iff.mp (continues b later)).1

end Utf8

namespace Toml

/-- A character that may stand anywhere in a document. -/
def Printed (char : Char) : Prop :=
  0x20 ≤ char.toNat ∧ char.toNat ≠ 0x7F

/-- A character that stands for itself inside a string. -/
def Plain (char : Char) : Prop :=
  Printed char ∧ char ≠ '"' ∧ char ≠ '\\'

instance (char : Char) : Decidable (Printed char) :=
  inferInstanceAs (Decidable (_ ∧ _))

instance (char : Char) : Decidable (Plain char) :=
  inferInstanceAs (Decidable (_ ∧ _))

theorem Printed.not_break {char : Char} (printed : Printed char) : isBreak char = false := by
  rw [← Bool.not_eq_true]
  intro breaks
  simp only [isBreak, Bool.or_eq_true, beq_iff_eq] at breaks
  rcases breaks with rfl | rfl <;> exact absurd printed (by decide)

/-- Raw content of a string on one line, with the content it stands for. -/
inductive Spelled : List Char → List Char → Prop
  | nil : Spelled [] []
  | plain {char : Char} {content raw : List Char} (itself : Plain char)
      (later : Spelled content raw) : Spelled (char :: content) (char :: raw)
  | short {char letter : Char} {content raw : List Char} (escape : escapeLetter? letter = some char)
      (later : Spelled content raw) : Spelled (char :: content) ('\\' :: letter :: raw)
  | code {char a b c d : Char} {content raw : List Char}
      (escape : coded? [a, b, c, d] = some char) (later : Spelled content raw) :
      Spelled (char :: content) ('\\' :: 'u' :: a :: b :: c :: d :: raw)

theorem printed_of_escapeLetter? {char letter : Char} (escape : escapeLetter? letter = some char) :
    Printed letter := by
  unfold escapeLetter? at escape
  split at escape
  all_goals first | cases escape; decide | cases escape

theorem plain_of_wide {char : Char} (wide : 0x80 ≤ char.toNat) : Plain char := by
  refine ⟨⟨by omega, by omega⟩, ?_, ?_⟩ <;> rintro rfl <;> exact absurd wide (by decide)

theorem plain_of_value? {char : Char} (digit : (Hex.value? char).isSome) : Plain char := by
  by_cases ascii : char.toNat < 0x80
  · have table : ∀ n < 0x80, (Hex.value? (Char.ofNat n)).isSome → Plain (Char.ofNat n) := by
      decide
    rw [← Char.ofNat_toNat char] at digit ⊢
    exact table _ ascii digit
  · exact plain_of_wide (Nat.le_of_not_lt ascii)

theorem plain_of_coded? {char : Char} {digits : List Char} (escape : coded? digits = some char) :
    ∀ digit ∈ digits, Plain digit := by
  have reads : ∀ (digits : List Char) (start n : Nat),
      digits.foldlM (fun n char => (Hex.value? char).map (n * 16 + ·)) start = some n →
        ∀ digit ∈ digits, Plain digit := by
    intro digits
    induction digits with
    | nil => simp
    | cons first digits ih =>
        intro start n read
        rw [List.foldlM_cons] at read
        obtain ⟨next, value, later⟩ := Option.bind_eq_some_iff.mp read
        obtain ⟨value, known, _⟩ := Option.map_eq_some_iff.mp value
        exact List.forall_mem_cons.mpr ⟨plain_of_value? (by simp [known]), ih _ _ later⟩
  unfold coded? at escape
  split at escape
  · next n known => exact reads digits 0 n known
  · cases escape

theorem rawLine?_plain {char : Char} (itself : Plain char) (text : List Char) :
    rawLine? (char :: text) = (rawLine? text).map fun (raw, rest) => (char :: raw, rest) := by
  rw [rawLine?, itself.1.not_break]
  · rfl
  · exact itself.2.1
  · intro _ _ same
    exact absurd same itself.2.2

namespace Spelled

variable {content raw : List Char}

theorem printed (spelled : Spelled content raw) : ∀ char ∈ raw, Printed char := by
  induction spelled with
  | nil => simp
  | plain itself later ih => exact List.forall_mem_cons.mpr ⟨itself.1, ih⟩
  | short escape later ih =>
      have letter := printed_of_escapeLetter? escape
      exact List.forall_mem_cons.mpr ⟨by decide, List.forall_mem_cons.mpr ⟨letter, ih⟩⟩
  | code escape later ih =>
      have digits := plain_of_coded? escape
      simp only [List.forall_mem_cons] at digits ⊢
      obtain ⟨a, b, c, d, _⟩ := digits
      exact ⟨by decide, by decide, a.1, b.1, c.1, d.1, ih⟩

theorem rawLine?_eq (spelled : Spelled content raw) (rest : List Char) :
    rawLine? (raw ++ '"' :: rest) = some (raw, rest) := by
  induction spelled with
  | nil => simp [rawLine?]
  | plain itself later ih =>
      rw [List.cons_append, rawLine?_plain itself, ih]
      rfl
  | short escape later ih =>
      have letter := (printed_of_escapeLetter? escape).not_break
      rw [List.cons_append, List.cons_append, rawLine?, letter, ih]
      rfl
  | code escape later ih =>
      have digits := plain_of_coded? escape
      simp only [List.forall_mem_cons] at digits
      obtain ⟨a, b, c, d, _⟩ := digits
      simp only [List.cons_append]
      rw [rawLine?, rawLine?_plain a, rawLine?_plain b, rawLine?_plain c, rawLine?_plain d, ih]
      rfl

theorem unescape?_eq (spelled : Spelled content raw) : unescape? raw = some content := by
  induction spelled with
  | nil => rfl
  | plain itself later ih => simp [unescape?, itself.2.2, ih]
  | @short char letter content raw escape later ih =>
      have wide : letter ≠ 'u' ∧ letter ≠ 'U' := by
        constructor <;> rintro rfl <;> cases escape
      simp [unescape?, wide, escape, ih]
  | code escape later ih => simp [unescape?, escape, ih]

end Spelled

/-- A key that needs no quotes. -/
def Bare (key : List Char) : Prop :=
  key ≠ [] ∧ ∀ char ∈ key, isBare char = true

instance (key : List Char) : Decidable (Bare key) :=
  have : Decidable (∀ char ∈ key, isBare char = true) := List.decidableBAll _ key
  inferInstanceAs (Decidable (_ ∧ _))

theorem printed_of_isBare {char : Char} (bare : isBare char = true) : Printed char := by
  by_cases ascii : char.toNat < 0x80
  · have table : ∀ n < 0x80, isBare (Char.ofNat n) = true → Printed (Char.ofNat n) := by decide
    rw [← Char.ofNat_toNat char] at bare ⊢
    exact table _ ascii bare
  · exact (plain_of_wide (Nat.le_of_not_lt ascii)).1

namespace Bare

variable {key : List Char}

theorem printed (bare : Bare key) : ∀ char ∈ key, Printed char :=
  fun char member => printed_of_isBare (bare.2 char member)

/-- A bare key begins with none of the marks of the language. -/
theorem starts (bare : Bare key) (rest : List Char) :
    ∃ first text, key ++ rest = first :: text ∧ ∀ mark, isBare mark = false → first ≠ mark := by
  obtain ⟨first, later, rfl⟩ := List.exists_cons_of_ne_nil bare.1
  refine ⟨first, later ++ rest, rfl, ?_⟩
  rintro mark other rfl
  rw [bare.2 first List.mem_cons_self] at other
  cases other

theorem head_ne (bare : Bare key) {mark : Char} (other : isBare mark = false)
    (rest text : List Char) : key ++ rest ≠ mark :: text := by
  obtain ⟨first, later, split, apart⟩ := bare.starts rest
  rw [split]
  intro same
  exact apart mark other (List.cons.inj same).1

theorem skipBlanks_eq (bare : Bare key) (rest : List Char) :
    skipBlanks (key ++ rest) = key ++ rest := by
  obtain ⟨first, text, split, apart⟩ := bare.starts rest
  rw [split]
  simp [skipBlanks, isBlank, apart ' ' rfl, apart '\t' rfl]

theorem skipTrivia_eq (bare : Bare key) (rest : List Char) :
    skipTrivia false (key ++ rest) = key ++ rest := by
  obtain ⟨first, text, split, apart⟩ := bare.starts rest
  rw [split]
  simp [skipTrivia, isBlank, isBreak, apart ' ' rfl, apart '\t' rfl, apart '\n' rfl,
    apart '\r' rfl, apart '#' rfl]

theorem keyPart?_eq (bare : Bare key) (rest : List Char)
    (ends : ∀ char ∈ rest.head?, isBare char = false) :
    keyPart? (key ++ rest) = some (key, rest) := by
  have stops : rest.takeWhile isBare = [] ∧ rest.dropWhile isBare = rest := by
    cases rest with
    | nil => exact ⟨rfl, rfl⟩
    | cons char rest => simp [ends char rfl]
  have taken : (key ++ rest).takeWhile isBare = key := by
    rw [List.takeWhile_append_of_pos bare.2, stops.1, List.append_nil]
  have dropped : (key ++ rest).dropWhile isBare = rest := by
    rw [List.dropWhile_append_of_pos bare.2, stops.2]
  rw [keyPart?, taken, dropped]
  · simp [bare.1]
  · exact bare.head_ne rfl rest
  · exact bare.head_ne rfl rest

theorem key?_eq (bare : Bare key) (rest : List Char)
    (ends : ∀ char ∈ rest.head?, isBare char = false)
    (last : ∀ char ∈ (skipBlanks rest).head?, char ≠ '.') (budget : Nat) :
    key? (budget + 1) (key ++ rest) = some ([key], skipBlanks rest) := by
  rw [key?, bare.skipBlanks_eq, bare.keyPart?_eq rest ends]
  simp only [Option.bind_eq_bind, Option.bind_some]
  split
  · next text dotted => exact absurd rfl (last '.' (by rw [dotted]; rfl))
  · rfl

end Bare

/-- The text is read as the value wherever a line ends behind it. -/
structure ReadsValue (text : List Char) (expr : Expr) : Prop where
  printed : ∀ char ∈ text, Printed char
  read : ∀ budget rest,
    value? (budget + 1) (' ' :: (text ++ '\n' :: rest)) = some (expr, '\n' :: rest)

theorem Spelled.readsValue {content raw : List Char} (spelled : Spelled content raw) :
    ReadsValue ('"' :: (raw ++ ['"'])) (.text content) := by
  constructor
  · simp only [List.forall_mem_cons, List.forall_mem_append]
    exact ⟨by decide, spelled.printed, by decide, by simp⟩
  · intro budget rest
    have read := spelled.rawLine?_eq ('\n' :: rest)
    have line : literal? ('"' :: (raw ++ '"' :: '\n' :: rest)) =
        some (.text content, '\n' :: rest) := by
      rw [literal?]
      · simp [read, spelled.unescape?_eq]
      · -- two quotes follow only where the content is empty, and then the line ends
        intro text
        cases spelled with
        | nil => simp
        | plain itself later => simp [itself.2.1]
        | short => simp
        | code => simp
    simpa [value?, skipBlanks, isBlank] using line

theorem readsValue_boolean (value : Bool) :
    ReadsValue (if value then "true" else "false").toList (.boolean value) := by
  cases value
  · exact ⟨by simp [Printed], fun _ _ => rfl⟩
  · exact ⟨by simp [Printed], fun _ _ => rfl⟩

/-- The text is read as the statement wherever a line ends behind it. -/
structure Reads (text : List Char) (statement : Statement) : Prop where
  printed : ∀ char ∈ text, Printed char
  nonempty : text ≠ []
  starts : ∀ rest, skipTrivia false (text ++ rest) = text ++ rest
  read : ∀ budget rest,
    statement? (budget + 1) (text ++ '\n' :: rest) = some (statement, '\n' :: rest)

theorem Bare.reads_table {key : List Char} (bare : Bare key) :
    Reads ('[' :: (key ++ [']'])) (.table [key]) := by
  constructor
  · simp only [List.forall_mem_cons, List.forall_mem_append]
    exact ⟨by decide, bare.printed, by decide, by simp⟩
  · simp
  · intro rest
    rfl
  · intro budget rest
    have name := bare.key?_eq (']' :: '\n' :: rest) (by rintro _ ⟨⟩; rfl) (by simp [skipBlanks, isBlank])
      budget
    simp only [List.cons_append, List.append_assoc, List.nil_append]
    rw [statement?, name]
    · rfl
    · exact bare.head_ne rfl _

theorem Bare.reads_element {key : List Char} (bare : Bare key) :
    Reads ('[' :: '[' :: (key ++ [']', ']'])) (.element [key]) := by
  constructor
  · simp only [List.forall_mem_cons, List.forall_mem_append]
    exact ⟨by decide, by decide, bare.printed, by decide, by decide, by simp⟩
  · simp
  · intro rest
    rfl
  · intro budget rest
    have name := bare.key?_eq (']' :: ']' :: '\n' :: rest) (by rintro _ ⟨⟩; rfl)
      (by simp [skipBlanks, isBlank]) budget
    simp only [List.cons_append, List.append_assoc, List.nil_append]
    rw [statement?, name]
    rfl

theorem Bare.reads_entry {key text : List Char} {expr : Expr} (bare : Bare key)
    (value : ReadsValue text expr) :
    Reads (key ++ ' ' :: '=' :: ' ' :: text) (.entry [key] expr) := by
  constructor
  · simp only [List.forall_mem_cons, List.forall_mem_append]
    exact ⟨bare.printed, by decide, by decide, by decide, value.printed⟩
  · simp [bare.1]
  · intro rest
    rw [List.append_assoc]
    exact bare.skipTrivia_eq _
  · intro budget rest
    have name := bare.key?_eq (' ' :: '=' :: ' ' :: (text ++ '\n' :: rest)) (by rintro _ ⟨⟩; rfl)
      (by simp [skipBlanks, isBlank]) budget
    simp only [List.cons_append, List.append_assoc]
    rw [statement?, name]
    · have right := value.read budget rest
      simp [skipBlanks, isBlank, right]
    · intro text
      exact bare.head_ne rfl _ _
    · exact bare.head_ne rfl _

/-- Blanks and line breaks. -/
def Gap (text : List Char) : Prop :=
  ∀ char ∈ text, char = ' ' ∨ char = '\n'

instance (text : List Char) : Decidable (Gap text) :=
  List.decidableBAll _ text

theorem skipTrivia_gap {gap : List Char} (blank : Gap gap) (text : List Char) :
    skipTrivia false (gap ++ text) = skipTrivia false text := by
  induction gap with
  | nil => rfl
  | cons char gap ih =>
      obtain ⟨here, later⟩ := List.forall_mem_cons.mp blank
      rw [List.cons_append, skipTrivia, ih later]
      rcases here with rfl | rfl <;> rfl

/-- A text whose statements stand on lines of their own. -/
inductive Lines : List Char → List Statement → Prop
  | nil : Lines [] []
  | cons {gap text rest : List Char} {statement : Statement} {statements : List Statement}
      (blank : Gap gap) (reads : Reads text statement) (later : Lines rest statements) :
      Lines (gap ++ (text ++ '\n' :: rest)) (statement :: statements)

theorem isClean_of_printed {text : List Char}
    (printed : ∀ char ∈ text, char = '\n' ∨ Printed char) : isClean text = true := by
  induction text with
  | nil => rfl
  | cons char text ih =>
      obtain ⟨here, later⟩ := List.forall_mem_cons.mp printed
      rw [isClean, ih later]
      · rcases here with rfl | inside
        · rfl
        · simp [inside.1, inside.2]
      · rintro rest rfl
        rcases here with same | inside
        · cases same
        · exact absurd inside (by decide)

namespace Lines

variable {text : List Char} {statements : List Statement}

theorem append (lines : Lines text statements) {rest : List Char} {others : List Statement}
    (later : Lines rest others) : Lines (text ++ rest) (statements ++ others) := by
  induction lines with
  | nil => exact later
  | cons blank reads _ ih =>
      simpa using Lines.cons blank reads ih

theorem length_le (lines : Lines text statements) : statements.length ≤ text.length := by
  induction lines with
  | nil => exact Nat.le_refl 0
  | cons blank reads later ih =>
      simp only [List.length_append, List.length_cons]
      omega

theorem statements?_eq (lines : Lines text statements) {gap : List Char} (blank : Gap gap)
    {budget : Nat} (enough : statements.length < budget) :
    statements? budget (gap ++ text) = some statements := by
  induction lines generalizing gap budget with
  | nil =>
      obtain ⟨budget, rfl⟩ : ∃ less, budget = less + 1 := ⟨budget - 1, by omega⟩
      rw [statements?, skipTrivia_gap blank]
      rfl
  | @cons lead text rest statement statements leads reads later ih =>
      obtain ⟨budget, rfl⟩ : ∃ less, budget = less + 2 :=
        ⟨budget - 2, by rw [List.length_cons] at enough; omega⟩
      have next : Gap ['\n'] := by decide
      have others : statements? (budget + 1) _ = _ := ih next (Nat.lt_of_succ_lt_succ enough)
      rw [List.singleton_append] at others
      obtain ⟨first, text, rfl⟩ := List.exists_cons_of_ne_nil reads.nonempty
      have read := reads.read budget rest
      have ended : lineEnd? ('\n' :: rest) = some ('\n' :: rest) := rfl
      rw [statements?, skipTrivia_gap blank, skipTrivia_gap leads, reads.starts]
      rw [List.cons_append] at read ⊢
      simp [read, ended, others]

theorem printed (lines : Lines text statements) :
    ∀ char ∈ text, char = '\n' ∨ Printed char := by
  induction lines with
  | nil => simp
  | cons blank reads later ih =>
      rw [List.forall_mem_append, List.forall_mem_append, List.forall_mem_cons]
      refine ⟨?_, fun char member => .inr (reads.printed char member), .inl rfl, ih⟩
      intro char member
      rcases blank char member with rfl | rfl
      · exact .inr (by decide)
      · exact .inl rfl

theorem parse?_eq (lines : Lines text statements)
    (unmarked : dropMark (Utf8.encode text) = Utf8.encode text) :
    parse? (Utf8.encode text) = some statements := by
  have start : Gap [] := by decide
  have read := lines.statements?_eq start (Nat.lt_succ_of_le lines.length_le)
  have clean := isClean_of_printed lines.printed
  simpa [parse?, unmarked, Utf8.decode?_encode, clean] using read

end Lines

end Toml

end Stencil
