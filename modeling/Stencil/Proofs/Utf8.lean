import Stencil.Text.Utf8

/-!
# Well-formed texts

`width?` recognises exactly the encodings of characters, so a text is accepted
by `isValid` exactly when it encodes a list of characters.

What the library relies on is that well-formed text can be cut at every place
where a byte other than a continuation byte follows.  A search that moves byte
by byte for a well-formed, nonempty text therefore never stops inside a
character (`Valid.split`).
-/

namespace Stencil.Utf8

theorem isContinuation_iff {b : UInt8} :
    isContinuation b = true ↔ 0x80 ≤ b.toNat ∧ b.toNat ≤ 0xBF := by
  simp [isContinuation, UInt8.le_iff_toNat_le]

theorem isSecond_iff {lead second : UInt8} :
    isSecond lead second = true ↔
      0x80 ≤ second.toNat ∧ second.toNat ≤ 0xBF ∧
        (lead.toNat = 0xE0 → 0xA0 ≤ second.toNat) ∧
        (lead.toNat = 0xED → second.toNat ≤ 0x9F) ∧
        (lead.toNat = 0xF0 → 0x90 ≤ second.toNat) ∧
        (lead.toNat = 0xF4 → second.toNat ≤ 0x8F) := by
  unfold isSecond
  simp only [beq_iff_eq, ← UInt8.toNat_inj, UInt8.toNat_ofNat]
  repeat' split
  all_goals
    simp [isContinuation_iff, UInt8.le_iff_toNat_le]
    omega

/-- The code of a character is a Unicode scalar value. -/
theorem code_range (char : Char) :
    char.val.toNat < 0xD800 ∨ (0xDFFF < char.val.toNat ∧ char.val.toNat < 0x110000) :=
  char.valid

theorem width?_encode_append (char : Char) (rest : Bytes) :
    width? (String.utf8EncodeChar char ++ rest) =
      some (String.utf8EncodeChar char).length := by
  have range := code_range char
  unfold String.utf8EncodeChar
  generalize char.val.toNat = code at range ⊢
  dsimp only
  -- one case for each of the four widths
  repeat' split
  all_goals
    simp only [List.cons_append, List.nil_append, width?, isContinuation_iff, isSecond_iff,
      UInt8.lt_iff_toNat_lt, UInt8.le_iff_toNat_le, UInt8.toNat_ofNat, UInt8.toNat_ofNat',
      Bool.and_eq_true, decide_eq_true_eq]
  · rw [if_pos (by omega)]
    rfl
  · rw [if_neg (by omega), if_pos (by omega), if_pos (by omega)]
    rfl
  · rw [if_neg (by omega), if_neg (by omega), if_pos (by omega), if_pos (by omega)]
    rfl
  · rw [if_neg (by omega), if_neg (by omega), if_neg (by omega), if_pos (by omega),
      if_pos (by omega)]
    rfl

private theorem toNat_ofNat_code {code : Nat} (scalar : code.isValidChar) :
    (Char.ofNat code).val.toNat = code := by
  unfold Char.ofNat
  rw [dif_pos scalar]
  rfl

private theorem ofNat_eq_byte {n : Nat} {b : UInt8} (same : n = b.toNat) :
    UInt8.ofNat n = b := by
  rw [same, UInt8.ofNat_toNat]

private theorem encode_codePoint_one {lead : UInt8} (small : lead.toNat < 0x80) :
    String.utf8EncodeChar (Char.ofNat (codePoint [lead])) = [lead] := by
  have scalar : lead.toNat.isValidChar := .inl (by omega)
  unfold codePoint String.utf8EncodeChar
  simp only [toNat_ofNat_code scalar]
  rw [if_pos (by omega), UInt8.ofNat_toNat]

private theorem encode_codePoint_two {lead second : UInt8}
    (leads : 0xC2 ≤ lead.toNat ∧ lead.toNat ≤ 0xDF)
    (continues : isContinuation second = true) :
    String.utf8EncodeChar (Char.ofNat (codePoint [lead, second])) = [lead, second] := by
  rw [isContinuation_iff] at continues
  have scalar : ((lead.toNat - 0xC0) * 0x40 + (second.toNat - 0x80)).isValidChar :=
    .inl (by omega)
  unfold codePoint String.utf8EncodeChar
  simp only [toNat_ofNat_code scalar]
  rw [if_neg (by omega), if_pos (by omega), ofNat_eq_byte (b := lead) (by omega),
    ofNat_eq_byte (b := second) (by omega)]

private theorem encode_codePoint_three {lead second third : UInt8}
    (leads : 0xE0 ≤ lead.toNat ∧ lead.toNat ≤ 0xEF)
    (continues : isSecond lead second = true) (ends : isContinuation third = true) :
    String.utf8EncodeChar (Char.ofNat (codePoint [lead, second, third])) =
      [lead, second, third] := by
  rw [isSecond_iff] at continues
  rw [isContinuation_iff] at ends
  have scalar : ((lead.toNat - 0xE0) * 0x1000 + (second.toNat - 0x80) * 0x40 +
      (third.toNat - 0x80)).isValidChar := by
    unfold Nat.isValidChar
    omega
  unfold codePoint String.utf8EncodeChar
  simp only [toNat_ofNat_code scalar]
  rw [if_neg (by omega), if_neg (by omega), if_pos (by omega),
    ofNat_eq_byte (b := lead) (by omega), ofNat_eq_byte (b := second) (by omega),
    ofNat_eq_byte (b := third) (by omega)]

private theorem encode_codePoint_four {lead second third fourth : UInt8}
    (leads : 0xF0 ≤ lead.toNat ∧ lead.toNat ≤ 0xF4)
    (continues : isSecond lead second = true) (goesOn : isContinuation third = true)
    (ends : isContinuation fourth = true) :
    String.utf8EncodeChar (Char.ofNat (codePoint [lead, second, third, fourth])) =
      [lead, second, third, fourth] := by
  rw [isSecond_iff] at continues
  rw [isContinuation_iff] at goesOn ends
  have scalar : ((lead.toNat - 0xF0) * 0x40000 + (second.toNat - 0x80) * 0x1000 +
      (third.toNat - 0x80) * 0x40 + (fourth.toNat - 0x80)).isValidChar := by
    unfold Nat.isValidChar
    omega
  unfold codePoint String.utf8EncodeChar
  simp only [toNat_ofNat_code scalar]
  rw [if_neg (by omega), if_neg (by omega), if_neg (by omega),
    ofNat_eq_byte (b := lead) (by omega), ofNat_eq_byte (b := second) (by omega),
    ofNat_eq_byte (b := third) (by omega), ofNat_eq_byte (b := fourth) (by omega)]

/-- A recognised sequence encodes the character of its code point. -/
theorem encode_codePoint {text : Bytes} {n : Nat} (known : width? text = some n) :
    String.utf8EncodeChar (Char.ofNat (codePoint (text.take n))) = text.take n ∧
      n ≤ text.length := by
  unfold width? at known
  split at known
  · cases known
  next lead tail =>
    simp only [UInt8.lt_iff_toNat_lt, UInt8.le_iff_toNat_le, UInt8.toNat_ofNat,
      Bool.and_eq_true, decide_eq_true_eq] at known
    split at known
    · next one =>
        cases known
        exact ⟨encode_codePoint_one one, by simp⟩
    split at known
    · next two =>
        split at known
        · next second rest =>
            split at known
            · next continues =>
                cases known
                exact ⟨encode_codePoint_two two continues, by simp⟩
            · cases known
        · cases known
    split at known
    · next three =>
        split at known
        · next second third rest =>
            split at known
            · next continues =>
                cases known
                exact ⟨encode_codePoint_three three continues.1 continues.2, by simp⟩
            · cases known
        · cases known
    split at known
    · next four =>
        split at known
        · next second third fourth rest =>
            split at known
            · next continues =>
                cases known
                exact ⟨encode_codePoint_four four continues.1.1 continues.1.2 continues.2,
                  by simp⟩
            · cases known
        · cases known
    · cases known

theorem width?_eq_some_iff {text : Bytes} {n : Nat} :
    width? text = some n ↔
      ∃ (char : Char) (rest : Bytes),
        text = String.utf8EncodeChar char ++ rest ∧
          n = (String.utf8EncodeChar char).length := by
  constructor
  · intro known
    obtain ⟨encoded, fits⟩ := encode_codePoint known
    refine ⟨Char.ofNat (codePoint (text.take n)), text.drop n, ?_, ?_⟩
    · rw [encoded, List.take_append_drop]
    · rw [encoded, List.length_take, Nat.min_eq_left fits]
  · rintro ⟨char, rest, rfl, rfl⟩
    exact width?_encode_append char rest

/-- Of the bytes of a character, exactly the first is no continuation byte. -/
theorem encode_shape (char : Char) :
    ∃ lead tail, String.utf8EncodeChar char = lead :: tail ∧
      isContinuation lead = false ∧ ∀ b ∈ tail, isContinuation b = true := by
  have range := code_range char
  unfold String.utf8EncodeChar
  generalize char.val.toNat = code at range ⊢
  dsimp only
  split
  · refine ⟨_, _, rfl, ?_, by simp⟩
    rw [← Bool.not_eq_true, isContinuation_iff]
    simp only [UInt8.toNat_ofNat']
    omega
  repeat' split
  all_goals
    refine ⟨_, _, rfl, ?_, ?_⟩
    · rw [← Bool.not_eq_true, isContinuation_iff]
      simp only [UInt8.toNat_ofNat']
      omega
    · simp only [isContinuation_iff, List.mem_cons, List.not_mem_nil, or_false,
        forall_eq_or_imp, forall_eq, UInt8.toNat_ofNat']
      omega

/-- The text encodes a list of characters. -/
def Valid (text : Bytes) : Prop :=
  ∃ chars : List Char, text = encode chars

/-- The text does not begin inside a character. -/
def Aligned (text : Bytes) : Prop :=
  ∀ b ∈ text.head?, isContinuation b = false

theorem encode_cons (char : Char) (chars : List Char) :
    encode (char :: chars) = String.utf8EncodeChar char ++ encode chars :=
  rfl

@[simp] theorem encode_nil : encode [] = [] :=
  rfl

@[simp] theorem encode_append (left right : List Char) :
    encode (left ++ right) = encode left ++ encode right := by
  simp [encode]

theorem codePoint_encode (char : Char) :
    codePoint (String.utf8EncodeChar char) = char.toNat := by
  have range := code_range char
  have code : char.toNat = char.val.toNat := rfl
  rw [code]
  unfold String.utf8EncodeChar
  generalize char.val.toNat = code at range ⊢
  dsimp only
  -- one case for each of the four widths
  repeat' split
  all_goals
    unfold codePoint
    simp only [UInt8.toNat_ofNat']
    omega

/-- The units of well-formed text are its characters. -/
theorem units_encode (chars : List Char) :
    units (encode chars) = chars.map fun char => (String.utf8EncodeChar char, some char) := by
  induction chars with
  | nil => simp [encode, units]
  | cons char chars ih =>
      obtain ⟨lead, tail, shape, _⟩ := encode_shape char
      have known := width?_encode_append char (encode chars)
      have value := codePoint_encode char
      rw [shape, List.cons_append] at known
      rw [shape] at value
      rw [encode_cons, List.map_cons, shape, List.cons_append, units]
      simp [known, ih, value]

@[simp] theorem valid_nil : Valid [] :=
  ⟨[], rfl⟩

theorem valid_char (char : Char) : Valid (String.utf8EncodeChar char) :=
  ⟨[char], by simp [encode]⟩

theorem Valid.append {left right : Bytes} (leftValid : Valid left)
    (rightValid : Valid right) : Valid (left ++ right) := by
  obtain ⟨leftChars, rfl⟩ := leftValid
  obtain ⟨rightChars, rfl⟩ := rightValid
  exact ⟨leftChars ++ rightChars, by simp [encode]⟩

theorem valid_flatMap {α : Type} {items : List α} {text : α → Bytes}
    (valid : ∀ item ∈ items, Valid (text item)) : Valid (items.flatMap text) := by
  induction items with
  | nil => exact valid_nil
  | cons item items ih =>
      rw [List.flatMap_cons]
      apply Valid.append
      · exact valid item List.mem_cons_self
      · exact ih fun later member => valid later (List.mem_cons_of_mem _ member)

theorem Valid.aligned {text : Bytes} (valid : Valid text) : Aligned text := by
  obtain ⟨chars, rfl⟩ := valid
  cases chars with
  | nil =>
      intro b first
      cases first
  | cons char chars =>
      obtain ⟨lead, tail, encoded, leads, _⟩ := encode_shape char
      intro b first
      rw [encode_cons, encoded] at first
      cases first
      exact leads

theorem Aligned.of_occurs {needle text : Bytes} (aligned : Aligned needle)
    (nonempty : needle ≠ []) (occurs : needle <+: text) : Aligned text := by
  obtain ⟨rest, rfl⟩ := occurs
  cases needle with
  | nil => exact (nonempty rfl).elim
  | cons b needle => simpa [Aligned] using aligned

/-- Well-formed text can be cut wherever the second part does not begin inside
a character. -/
theorem Valid.split {before after : Bytes} (valid : Valid (before ++ after))
    (aligned : Aligned after) : Valid before ∧ Valid after := by
  obtain ⟨chars, encoded⟩ := valid
  induction chars generalizing before with
  | nil =>
      obtain ⟨rfl, rfl⟩ := List.append_eq_nil_iff.mp encoded
      exact ⟨valid_nil, valid_nil⟩
  | cons char chars ih =>
      rw [encode_cons] at encoded
      rcases List.append_eq_append_iff.mp encoded with
        ⟨remainder, whole, rest⟩ | ⟨later, whole, rest⟩
      · -- the cut lies within the first character, so at one of its two ends
        obtain ⟨lead, tail, shape, _, continues⟩ := encode_shape char
        cases before with
        | nil => exact ⟨valid_nil, ⟨char :: chars, by simpa [encode_cons] using encoded⟩⟩
        | cons b before =>
            cases remainder with
            | nil =>
                rw [List.append_nil] at whole
                rw [List.nil_append] at rest
                exact ⟨whole ▸ valid_char char, ⟨chars, rest⟩⟩
            | cons inner remainder =>
                have inside : inner ∈ tail := by
                  rw [shape, List.cons_append, List.cons.injEq] at whole
                  simp [whole.2]
                have outside : isContinuation inner = false :=
                  aligned inner (by simp [rest])
                rw [continues inner inside] at outside
                cases outside
      · obtain ⟨laterValid, afterValid⟩ := ih rest.symm
        exact ⟨whole ▸ (valid_char char).append laterValid, afterValid⟩

/-- The encoding of a character is determined by any text that begins with it. -/
theorem encode_prefix_unique {first second : Char} {left right : Bytes}
    (same : String.utf8EncodeChar first ++ left = String.utf8EncodeChar second ++ right) :
    String.utf8EncodeChar first = String.utf8EncodeChar second ∧ left = right := by
  have firstWidth := width?_encode_append first left
  rw [same, width?_encode_append second right, Option.some.injEq] at firstWidth
  exact List.append_inj same firstWidth.symm

theorem Valid.of_append_left {before after : Bytes} (valid : Valid (before ++ after))
    (beforeValid : Valid before) : Valid after := by
  obtain ⟨chars, rfl⟩ := beforeValid
  induction chars with
  | nil => simpa [encode] using valid
  | cons char chars ih =>
      apply ih
      obtain ⟨all, encoded⟩ := valid
      rw [encode_cons, List.append_assoc] at encoded
      cases all with
      | nil =>
          obtain ⟨lead, tail, shape, _⟩ := encode_shape char
          simp [shape, encode] at encoded
      | cons other all => exact ⟨all, (encode_prefix_unique encoded).2⟩

theorem Valid.of_append_right {before after : Bytes} (valid : Valid (before ++ after))
    (afterValid : Valid after) : Valid before :=
  (valid.split afterValid.aligned).1

/-- What follows a well-formed beginning of a well-formed text is well-formed. -/
theorem Valid.drop_prefix {needle text : Bytes} (valid : Valid text)
    (needleValid : Valid needle) (begins : needle <+: text) :
    Valid (text.drop needle.length) := by
  obtain ⟨rest, rfl⟩ := begins
  simpa using valid.of_append_left needleValid

/-- The first character of a text: the encoding the text begins with, or its
first byte where it begins with none. -/
def First (char text : Bytes) : Prop :=
  char <+: text ∧
    ((∃ scalar : Char, char = String.utf8EncodeChar scalar) ∨
      (char.length = 1 ∧ ∀ scalar : Char, ¬ String.utf8EncodeChar scalar <+: text))

theorem width_encode_append (char : Char) (rest : Bytes) :
    width (String.utf8EncodeChar char ++ rest) = (String.utf8EncodeChar char).length := by
  simp [width, width?_encode_append]

theorem width_of_no_char {text : Bytes}
    (none : ∀ scalar : Char, ¬ String.utf8EncodeChar scalar <+: text) : width text = 1 := by
  cases known : width? text with
  | none => simp [width, known]
  | some n =>
      obtain ⟨char, rest, rfl, _⟩ := width?_eq_some_iff.mp known
      exact (none char (List.prefix_append _ _)).elim

theorem first_iff {char text : Bytes} (nonempty : text ≠ []) :
    First char text ↔ char = text.take (width text) := by
  by_cases begins : ∃ scalar : Char, String.utf8EncodeChar scalar <+: text
  · obtain ⟨scalar, rest, rfl⟩ := begins
    rw [width_encode_append, List.take_left]
    constructor
    · rintro ⟨⟨after, same⟩, ⟨other, rfl⟩ | ⟨_, none⟩⟩
      · exact (encode_prefix_unique same).1
      · exact (none scalar (List.prefix_append _ _)).elim
    · rintro rfl
      exact ⟨List.prefix_append _ _, .inl ⟨scalar, rfl⟩⟩
  · have none : ∀ scalar : Char, ¬ String.utf8EncodeChar scalar <+: text :=
      fun scalar found => begins ⟨scalar, found⟩
    rw [width_of_no_char none]
    constructor
    · rintro ⟨found, ⟨scalar, rfl⟩ | ⟨single, _⟩⟩
      · exact (none scalar found).elim
      · rw [← single]
        exact List.prefix_iff_eq_take.mp found
    · rintro rfl
      refine ⟨List.take_prefix _ _, .inr ⟨?_, none⟩⟩
      have long := List.length_pos_iff.mpr nonempty
      rw [List.length_take]
      omega

/-- Character by character one arrives at every place that does not lie inside
a character. -/
theorem width_le_of_aligned {text : Bytes} {gap : Nat} (positive : 0 < gap)
    (inside : gap < text.length) (aligned : Aligned (text.drop gap)) : width text ≤ gap := by
  by_cases begins : ∃ scalar : Char, String.utf8EncodeChar scalar <+: text
  · obtain ⟨scalar, rest, rfl⟩ := begins
    rw [width_encode_append]
    obtain ⟨lead, tail, shape, _, continues⟩ := encode_shape scalar
    rw [shape] at inside aligned ⊢
    obtain ⟨gap, rfl⟩ : ∃ rest, gap = rest + 1 := ⟨gap - 1, by omega⟩
    by_cases within : gap < tail.length
    · have next : tail[gap] ∈ (((lead :: tail) ++ rest).drop (gap + 1)).head? := by
        rw [List.head?_drop, List.cons_append, List.getElem?_cons_succ,
          List.getElem?_append_left within, List.getElem?_eq_getElem within]
        exact rfl
      have continued := continues tail[gap] (List.getElem_mem within)
      rw [aligned _ next] at continued
      cases continued
    · rw [List.length_cons]
      omega
  · rw [width_of_no_char fun scalar found => begins ⟨scalar, found⟩]
    exact positive

theorem Valid.first {text : Bytes} (valid : Valid text) :
    Valid (text.take (width text)) ∧ Valid (text.drop (width text)) := by
  obtain ⟨chars, rfl⟩ := valid
  cases chars with
  | nil => simp [encode]
  | cons char chars =>
      rw [encode_cons, width_encode_append, List.take_left, List.drop_left]
      exact ⟨valid_char char, ⟨chars, rfl⟩⟩

theorem units_flatMap (text : Bytes) : (units text).flatMap (·.1) = text := by
  fun_induction units text with
  | case1 => rfl
  | case2 b rest unknown ih => simp [ih]
  | case3 b rest n known char ih =>
      have positive := width?_pos known
      have dropped : rest.drop (n - 1) = (b :: rest).drop n := by
        obtain ⟨n, rfl⟩ : ∃ m, n = m + 1 := ⟨n - 1, by omega⟩
        simp
      rw [List.flatMap_cons, ih, dropped]
      exact List.take_append_drop n _

theorem valid_of_mem_units {text : Bytes} {unit : Bytes × Option Char}
    (member : unit ∈ units text) (known : unit.2.isSome) : Valid unit.1 := by
  fun_induction units text with
  | case1 => cases member
  | case2 b rest unknown ih =>
      rcases List.mem_cons.mp member with rfl | later
      · cases known
      · exact ih later
  | case3 b rest n recognised char ih =>
      rcases List.mem_cons.mp member with rfl | later
      · have encoded : String.utf8EncodeChar (Char.ofNat (codePoint char)) = char :=
          (encode_codePoint recognised).1
        exact ⟨[Char.ofNat (codePoint char)], by simp [encode, encoded]⟩
      · exact ih later

/-- The check accepts exactly the encodings of lists of characters. -/
theorem isValid_iff {text : Bytes} : isValid text = true ↔ Valid text := by
  constructor
  · intro accepted
    rw [← units_flatMap text]
    apply valid_flatMap
    intro unit member
    exact valid_of_mem_units member (List.all_eq_true.mp accepted unit member)
  · rintro ⟨chars, rfl⟩
    simp [isValid, units_encode]

theorem decode?_encode (chars : List Char) : decode? (encode chars) = some chars := by
  rw [decode?, units_encode, List.mapM_map]
  exact (List.mapM_pure (m := Option) (f := id)).trans (by simp)

/-- The characters of well-formed text. -/
def chars (text : Bytes) : List Char :=
  (decode? text).getD []

theorem Valid.encode_chars {text : Bytes} (valid : Valid text) : encode (chars text) = text := by
  obtain ⟨chars, rfl⟩ := valid
  rw [Utf8.chars, decode?_encode, Option.getD_some]

theorem bytes_eq_encode (text : String) : bytes text = encode text.toList := by
  unfold bytes encode String.toUTF8
  rw [← String.utf8Encode_toList]
  simp [List.utf8Encode]

theorem encode_of_ascii {char : Char} (ascii : char.toNat < 0x80) :
    String.utf8EncodeChar char = [byte char] := by
  have code : char.val.toNat = char.toNat := rfl
  simp only [String.utf8EncodeChar, code]
  rw [if_pos (by omega)]
  rfl

end Stencil.Utf8
