import Stencil.Proofs.YamlText

/-!
# Literal blocks are read back

A literal block is read line by line, so a text is taken apart in the same way:
a line, the breaks behind it, and the lines that follow.  The breaks behind the
last line are what its header tells about.
-/

namespace Stencil.Yaml

/-- Characters of one line. -/
def OneLine (line : List Char) : Prop :=
  ∀ char ∈ line, isBreak char = false

/-- Nothing but line breaks. -/
def Breaks (breaks : List Char) : Prop :=
  ∀ char ∈ breaks, isBreak char = true

/-- A text that begins with a line: its content up to the end of its last line,
and the breaks behind it. -/
inductive Laid : List Char → List Char → List Char → Prop where
  | last {line trail : List Char} (filled : line ≠ []) (whole : OneLine line)
      (breaks : Breaks trail) : Laid (line ++ trail) line trail
  | more {line breaks text content trail : List Char} (filled : line ≠ []) (whole : OneLine line)
      (apart : breaks ≠ []) (ends : Breaks breaks) (later : Laid text content trail) :
      Laid (line ++ (breaks ++ text)) (line ++ (breaks ++ content)) trail

namespace Laid

variable {text content trail : List Char}

theorem eq_append (laid : Laid text content trail) : text = content ++ trail := by
  induction laid with
  | last _ _ _ => rfl
  | more _ _ _ _ _ ih => simp [ih]

theorem trail_breaks (laid : Laid text content trail) : Breaks trail := by
  induction laid with
  | last _ _ breaks => exact breaks
  | more _ _ _ _ _ ih => exact ih

theorem last_noBreak (laid : Laid text content trail) :
    ∃ front last, content = front ++ [last] ∧ isBreak last = false := by
  induction laid with
  | @last line _ filled whole _ =>
      refine ⟨line.dropLast, line.getLast filled, ?_, whole _ (List.getLast_mem filled)⟩
      exact (List.dropLast_concat_getLast filled).symm
  | @more line breaks _ _ _ _ _ _ _ _ ih =>
      obtain ⟨front, last, rfl, noBreak⟩ := ih
      exact ⟨line ++ (breaks ++ front), last, by simp, noBreak⟩

theorem first_noBreak (laid : Laid text content trail) :
    ∃ first more, content = first :: more ∧ isBreak first = false := by
  have begins {line : List Char} (filled : line ≠ []) (whole : OneLine line)
      (more : List Char) : ∃ first tail, line ++ more = first :: tail ∧ isBreak first = false := by
    obtain ⟨first, line, rfl⟩ := List.exists_cons_of_ne_nil filled
    exact ⟨first, line ++ more, rfl, whole first List.mem_cons_self⟩
  cases laid with
  | last filled whole _ => simpa using begins filled whole []
  | more filled whole _ _ _ => exact begins filled whole _

theorem cons {char : Char} (noBreak : isBreak char = false) (laid : Laid text content trail) :
    Laid (char :: text) (char :: content) trail := by
  have goesOn {line : List Char} (whole : OneLine line) : OneLine (char :: line) :=
    List.forall_mem_cons.mpr ⟨noBreak, whole⟩
  cases laid with
  | last _ whole breaks => exact .last (List.cons_ne_nil _ _) (goesOn whole) breaks
  | more _ whole apart ends later =>
      exact .more (List.cons_ne_nil _ _) (goesOn whole) apart ends later

/-- Every text consists of breaks and of lines behind them. -/
theorem behind_breaks (text : List Char) :
    ∃ breaks later, text = breaks ++ later ∧ Breaks breaks ∧
      (later = [] ∨ ∃ content trail, Laid later content trail) := by
  induction text with
  | nil => exact ⟨[], [], rfl, by simp [Breaks], .inl rfl⟩
  | cons char text ih =>
      obtain ⟨breaks, later, rfl, ends, lines⟩ := ih
      cases isEnd : isBreak char with
      | true =>
          refine ⟨char :: breaks, later, rfl, ?_, lines⟩
          exact List.forall_mem_cons.mpr ⟨isEnd, ends⟩
      | false =>
          have whole : OneLine [char] := by simpa [OneLine] using isEnd
          refine ⟨[], char :: (breaks ++ later), rfl, by simp [Breaks], .inr ?_⟩
          rcases lines with rfl | ⟨content, trail, laid⟩
          · rw [List.append_nil]
            exact ⟨_, _, .last (List.cons_ne_nil _ _) whole ends⟩
          · cases breaks with
            | nil => exact ⟨_, _, laid.cons isEnd⟩
            | cons first breaks =>
                exact ⟨_, _, .more (List.cons_ne_nil _ _) whole (List.cons_ne_nil _ _) ends laid⟩

theorem of_head {char : Char} (noBreak : isBreak char = false) (text : List Char) :
    ∃ content trail, Laid (char :: text) content trail := by
  obtain ⟨breaks, later, same, ends, lines⟩ := behind_breaks (char :: text)
  cases breaks with
  | nil =>
      obtain rfl : char :: text = later := same
      rcases lines with absent | laid
      · cases absent
      · exact laid
  | cons first breaks =>
      cases same
      rw [ends char List.mem_cons_self] at noBreak
      cases noBreak

end Laid

/-! ## Writing lines -/

section Write

variable {indent : Nat}

theorem literalLines_line {line : List Char} (whole : OneLine line) (text : List Char) :
    literalLines indent .inside (line ++ text) = line ++ literalLines indent .inside text := by
  induction line with
  | nil => rfl
  | cons char line ih =>
      obtain ⟨noBreak, later⟩ := List.forall_mem_cons.mp whole
      rw [List.cons_append, literalLines, noBreak, if_neg Bool.false_ne_true, ih later]
      rfl

theorem literalLines_breaks {breaks : List Char} (ends : Breaks breaks) (text : List Char) :
    literalLines indent .lineStart (breaks ++ text) =
      breaks ++ literalLines indent .lineStart text := by
  induction breaks with
  | nil => rfl
  | cons char breaks ih =>
      obtain ⟨isEnd, later⟩ := List.forall_mem_cons.mp ends
      rw [List.cons_append, literalLines, isEnd, if_pos rfl, ih later]
      rfl

theorem literalLines_first_break {char : Char} (ends : isBreak char = true) (place : LiteralPlace)
    (text : List Char) :
    literalLines indent place (char :: text) = char :: literalLines indent .lineStart text := by
  cases place <;> rw [literalLines, ends, if_pos rfl]

theorem literalLines_start {char : Char} (noBreak : isBreak char = false) (text : List Char) :
    literalLines indent .lineStart (char :: text) =
      List.replicate indent ' ' ++ literalLines indent .inside (char :: text) := by
  rw [literalLines, literalLines, noBreak, if_neg Bool.false_ne_true, if_neg Bool.false_ne_true]
  rfl

theorem literalLines_header {char : Char} (noBreak : isBreak char = false) (text : List Char) :
    literalLines indent .header (char :: text) =
      '\n' :: (List.replicate indent ' ' ++ literalLines indent .inside (char :: text)) := by
  rw [literalLines, literalLines, noBreak, if_neg Bool.false_ne_true, if_neg Bool.false_ne_true]
  rfl

theorem literalLines_trail {trail : List Char} (breaks : Breaks trail) (place : LiteralPlace)
    (text : List Char) :
    literalLines indent place (text ++ trail) = literalLines indent place text ++ trail := by
  induction text generalizing place with
  | nil =>
      cases trail with
      | nil => rfl
      | cons first trail =>
          obtain ⟨isEnd, later⟩ := List.forall_mem_cons.mp breaks
          have lines : literalLines indent .lineStart (trail ++ []) = _ :=
            literalLines_breaks later []
          rw [List.append_nil] at lines
          rw [List.nil_append, literalLines_first_break isEnd, lines]
          simp [literalLines]
  | cons char text ih =>
      rw [List.cons_append, literalLines.eq_def, literalLines.eq_def indent place (char :: text)]
      dsimp only
      split
      · rw [ih, List.cons_append]
      · rw [ih, List.append_assoc, List.cons_append]

theorem getLast?_literalLines (place : LiteralPlace) (text : List Char) :
    (literalLines indent place text).getLast? = text.getLast? := by
  induction text generalizing place with
  | nil => rfl
  | cons char text ih =>
      rw [literalLines.eq_def]
      dsimp only
      split
      · rw [List.getLast?_cons, List.getLast?_cons, ih]
      · rw [List.getLast?_append, List.getLast?_cons, List.getLast?_cons, ih]
        rfl

theorem length_le_literalLines (place : LiteralPlace) (text : List Char) :
    text.length ≤ (literalLines indent place text).length := by
  induction text generalizing place with
  | nil => exact Nat.le_refl _
  | cons char text ih =>
      rw [literalLines.eq_def]
      dsimp only
      split
      · exact Nat.succ_le_succ (ih _)
      · rw [List.length_append, List.length_cons, List.length_cons]
        have later := ih .inside
        omega

end Write

/-! ## Reading lines -/

section Indentation

variable {indent column widest : Nat} {breaks text : List Char}

theorem indentation?_spaces {count : Nat} (within : indent = 0 ∨ column + count ≤ indent) :
    indentation? indent column widest breaks (List.replicate count ' ' ++ text) =
      indentation? indent (column + count) widest breaks text := by
  induction count generalizing column with
  | zero => rfl
  | succ count ih =>
      have here : (indent == 0 || decide (column < indent)) = true := by
        simp only [Bool.or_eq_true, beq_iff_eq, decide_eq_true_eq]
        omega
      rw [List.replicate_succ, List.cons_append, indentation?, here]
      refine (ih (by omega)).trans ?_
      rw [Nat.add_right_comm, Nat.add_assoc]

theorem indentation?_breaks {ends : List Char} (all : Breaks ends) :
    indentation? indent 0 0 breaks (ends ++ text) =
      indentation? indent 0 0 (breaks ++ ends) text := by
  induction ends generalizing breaks with
  | nil => rw [List.append_nil, List.nil_append]
  | cons char ends ih =>
      obtain ⟨isEnd, later⟩ := List.forall_mem_cons.mp all
      have noSpace : (char == ' ') = false := by
        rw [beq_eq_false_iff_ne]
        rintro rfl
        cases isEnd
      have noTab : (char == '\t') = false := by
        rw [beq_eq_false_iff_ne]
        rintro rfl
        cases isEnd
      rw [List.cons_append, indentation?, noSpace, noTab, isEnd]
      simpa using @ih (breaks ++ [char]) later

theorem indentation?_stop (stops : NoGap text) :
    indentation? indent column widest breaks text =
      some (breaks, max widest column, column, text) := by
  cases text with
  | nil => rfl
  | cons char text =>
      obtain ⟨noBlank, noBreak⟩ := isGap_eq_false.mp (stops char rfl)
      rw [isBlank, Bool.or_eq_false_iff] at noBlank
      rw [indentation?, noBlank.1, noBlank.2, noBreak]
      simp

/-- Content begins at its column, with whatever character. -/
theorem indentation?_content (known : 0 < indent) {char : Char} (noBreak : isBreak char = false) :
    indentation? indent indent widest breaks (char :: text) =
      some (breaks, max widest indent, indent, char :: text) := by
  have here : (indent == 0 || decide (indent < indent)) = false := by
    simp [Nat.ne_of_gt known]
  rw [indentation?, here, noBreak]
  simp

end Indentation

/-- The break behind the last line of a text; it is added where there is none. -/
def closing (trail : List Char) : List Char :=
  if trail.isEmpty then ['\n'] else trail

theorem breaks_closing {trail : List Char} (breaks : Breaks trail) : Breaks (closing trail) := by
  unfold closing
  split
  · simp [Breaks, isBreak]
  · exact breaks

theorem closing_ne_nil (trail : List Char) : closing trail ≠ [] := by
  unfold closing
  split <;> simp_all

section Lines

variable {indent budget : Nat} {afterBlank : Bool} {lineBreak breaks : List Char}

theorem blockLines?_end {column : Nat} (outside : column < indent) (text : List Char) :
    blockLines? false indent (budget + 1) afterBlank lineBreak breaks column text =
      some ([], lineBreak, breaks, text) := by
  have notHere : (column == indent) = false := by
    simpa using Nat.ne_of_lt outside
  rw [blockLines?, notHere]
  rfl

/-- One line and the breaks behind it. -/
theorem blockLines?_line {line ends next : List Char} {column wide : Nat} (filled : line ≠ [])
    (whole : OneLine line) (apart : ends ≠ []) (all : Breaks ends) {text : List Char}
    (indented : indentation? indent 0 0 (ends.drop 1) text =
      some (ends.drop 1, wide, column, next)) :
    blockLines? false indent (budget + 1) afterBlank lineBreak breaks indent
        (line ++ (ends ++ text)) =
      (blockLines? false indent budget (line.head?.any isBlank) (ends.take 1) (ends.drop 1)
          column next).map
        fun (content, tail) => (lineBreak ++ breaks ++ line ++ content, tail) := by
  obtain ⟨first, ends, rfl⟩ := List.exists_cons_of_ne_nil apart
  obtain ⟨isEnd, later⟩ := List.forall_mem_cons.mp all
  have taken : (line ++ (first :: ends ++ text)).takeWhile (!isBreak ·) = line := by
    rw [List.takeWhile_append_of_pos (by simpa [OneLine] using whole)]
    simp [isEnd]
  have dropped : (line ++ (first :: ends ++ text)).dropWhile (!isBreak ·) =
      first :: (ends ++ text) := by
    rw [List.dropWhile_append_of_pos (by simpa [OneLine] using whole)]
    simp [isEnd]
  have blank : (line ++ (first :: ends ++ text)).head? = line.head? := by
    obtain ⟨char, line, rfl⟩ := List.exists_cons_of_ne_nil filled
    rfl
  have behind : indentation? indent 0 0 [] (ends ++ text) = some (ends, wide, column, next) := by
    rw [indentation?_breaks later]
    exact indented
  rw [blockLines?, taken, dropped, blank]
  simp only [beq_self_eq_true, Bool.true_and]
  rw [if_pos (by simp [filled])]
  simp only [List.drop_one, List.tail_cons, List.take_succ_cons, List.take_zero, behind]
  cases blockLines? false indent budget (line.head?.any isBlank) [first] ends column next with
  | none => rfl
  | some found => simp [joinBreaks]

variable {count : Nat} {next text content trail : List Char}

/-- The lines of a literal are read back, up to a line that lies further out. -/
theorem blockLines?_laid (known : 0 < indent) (outside : count < indent) (noGap : NoGap next)
    (laid : Laid text content trail) (enough : text.length < budget) :
    blockLines? false indent budget afterBlank lineBreak breaks indent
        (literalLines indent .inside content ++
          (closing trail ++ (List.replicate count ' ' ++ next))) =
      some (lineBreak ++ breaks ++ content, (closing trail).take 1, (closing trail).drop 1,
        next) := by
  -- One step takes a line and all breaks behind it, so the induction is on the lines.
  induction laid generalizing budget afterBlank lineBreak breaks with
  | @last line trail filled whole ends =>
      have positive := List.length_pos_iff.mpr filled
      rw [List.length_append] at enough
      obtain ⟨less, rfl⟩ : ∃ less, budget = less + 2 := Nat.exists_eq_add_of_le' (by omega)
      have written : literalLines indent .inside (line ++ []) = _ := literalLines_line whole []
      rw [List.append_nil] at written
      have behind : indentation? indent 0 0 ((closing trail).drop 1)
          (List.replicate count ' ' ++ next) =
            some ((closing trail).drop 1, max 0 (0 + count), 0 + count, next) := by
        rw [indentation?_spaces (.inr (by omega)), indentation?_stop noGap]
      rw [written, literalLines, List.append_nil,
        blockLines?_line filled whole (closing_ne_nil trail) (breaks_closing ends) behind,
        blockLines?_end (by omega)]
      simp
  | @more line ends text content trail filled whole apart all later ih =>
      have positive := List.length_pos_iff.mpr filled
      rw [List.length_append, List.length_append] at enough
      obtain ⟨less, rfl⟩ : ∃ less, budget = less + 1 := Nat.exists_eq_add_of_le' (by omega)
      obtain ⟨first, more, begins, noBreak⟩ := later.first_noBreak
      have written : literalLines indent .inside (line ++ (ends ++ content)) =
          line ++ (ends ++ (List.replicate indent ' ' ++ literalLines indent .inside content)) := by
        obtain ⟨ending, others, rfl⟩ := List.exists_cons_of_ne_nil apart
        obtain ⟨isEnd, othersEnd⟩ := List.forall_mem_cons.mp all
        rw [literalLines_line whole, List.cons_append, literalLines_first_break isEnd,
          literalLines_breaks othersEnd, begins, literalLines_start noBreak, List.cons_append]
      have behind : indentation? indent 0 0 (ends.drop 1)
          (List.replicate indent ' ' ++ (literalLines indent .inside content ++
            (closing trail ++ (List.replicate count ' ' ++ next)))) =
          some (ends.drop 1, max 0 indent, indent, literalLines indent .inside content ++
            (closing trail ++ (List.replicate count ' ' ++ next))) := by
        have starts : literalLines indent .inside content =
            first :: literalLines indent .inside more := by
          rw [begins, literalLines, noBreak]
          rfl
        rw [indentation?_spaces (.inr (by omega)), Nat.zero_add, starts, List.cons_append,
          indentation?_content known noBreak]
      rw [written, List.append_assoc, List.append_assoc, List.append_assoc,
        blockLines?_line filled whole apart all behind, ih (by omega), Option.map_some,
        List.take_append_drop]
      simp [List.append_assoc]

end Lines

/-! ## Headers -/

/-- What a header says about the breaks at the end. -/
def chompOf : List Char → Chomp
  | [] => .strip
  | [_] => .clip
  | _ => .keep

/-- The mark of a chomping. -/
def Chomp.mark : Chomp → List Char
  | .strip => ['-']
  | .clip => []
  | .keep => ['+']

section Header

variable {indent count : Nat} {outer : Int} {text content trail next : List Char}

theorem chompMark_laid (laid : Laid text content trail) :
    chompMark text = (chompOf trail).mark := by
  have breaks := laid.trail_breaks
  obtain ⟨front, last, rfl, noBreak⟩ := laid.last_noBreak
  obtain rfl := laid.eq_append
  rcases trail.eq_nil_or_concat with rfl | ⟨trail, final, rfl⟩
  · simp only [chompMark, List.append_nil, List.reverse_append, List.reverse_singleton,
      List.singleton_append]
    cases front.reverse with
    | nil => simp [noBreak, chompOf, Chomp.mark]
    | cons previous front => simp [noBreak, chompOf, Chomp.mark]
  · have finalEnds : isBreak final = true := breaks final (by simp)
    rcases trail.eq_nil_or_concat with rfl | ⟨trail, previous, rfl⟩
    · simp [chompMark, noBreak, finalEnds, chompOf, Chomp.mark]
    · have previousEnds : isBreak previous = true := breaks previous (by simp)
      have several : chompOf (trail ++ [previous, final]) = .keep := by
        cases trail <;> simp [chompOf]
      simp [chompMark, finalEnds, previousEnds, several, Chomp.mark]

theorem closing_eq (trail : List Char) :
    (match chompOf trail with
      | .strip => []
      | .clip => (closing trail).take 1
      | .keep => (closing trail).take 1 ++ (closing trail).drop 1) = trail := by
  match trail with
  | [] => rfl
  | [_] => rfl
  | _ :: _ :: _ => rfl

/-- The marks of a header and the end of its line. -/
theorem blockHeader?_marks (marked : Bool) (chomp : Chomp) (behind : List Char) :
    blockHeader? ((if marked then ['4'] else []) ++ chomp.mark ++ '\n' :: behind) =
      some ({ chomp, increment := if marked then 4 else 0 }, behind) := by
  cases marked <;> cases chomp <;> rfl

/-- The break that ends the last line of a text, where the text does not. -/
theorem endLine_laid (laid : Laid text content trail) {written : List Char}
    (same : written.getLast? = text.getLast?) {lines : List Char}
    (ends : written = lines ++ trail) :
    endLine written = lines ++ closing trail := by
  have breaks := laid.trail_breaks
  obtain ⟨front, last, rfl, noBreak⟩ := laid.last_noBreak
  obtain rfl := laid.eq_append
  rw [endLine, same]
  rcases trail.eq_nil_or_concat with rfl | ⟨trail, final, rfl⟩
  · simp [noBreak, ends, closing]
  · have finalEnds : isBreak final = true := breaks final (by simp)
    rw [List.concat_eq_append, ← List.append_assoc, List.getLast?_concat]
    simp [finalEnds, ends, closing]

theorem endLine_literalBlock (laid : Laid text content trail) :
    endLine (literalBlock indent text) =
      '|' :: (indentMark text ++ (chompOf trail).mark ++ '\n' ::
        (List.replicate indent ' ' ++ (literalLines indent .inside content ++ closing trail))) := by
  obtain ⟨first, more, begins, noBreak⟩ := laid.first_noBreak
  have lines : literalLines indent .header text = '\n' ::
      (List.replicate indent ' ' ++ literalLines indent .inside content) ++ trail := by
    rw [laid.eq_append, literalLines_trail laid.trail_breaks, begins, literalLines_header noBreak]
  have filled : text ≠ [] := by
    rw [laid.eq_append, begins]
    simp
  have last : (literalBlock indent text).getLast? = text.getLast? := by
    rw [literalBlock, List.getLast?_append, getLast?_literalLines,
      List.getLast?_eq_some_getLast filled]
    rfl
  have ends : literalBlock indent text =
      '|' :: (indentMark text ++ (chompOf trail).mark ++ '\n' ::
        (List.replicate indent ' ' ++ literalLines indent .inside content)) ++ trail := by
    rw [literalBlock, chompMark_laid laid, lines]
    simp
  rw [endLine_laid laid last ends]
  simp

theorem block?_of_lines {header : BlockHeader} {given : Nat}
    {behind lines lineBreak breaks : List Char} (headed : blockHeader? text = some (header, behind))
    (told : (if header.increment == 0 then 0 else (max outer 0).toNat + header.increment) = given)
    (indented : indentation? given 0 0 [] behind = some ([], indent, indent, lines))
    (found : (if given == 0 then max indent (max (outer + 1).toNat 1) else given) = indent)
    (read : blockLines? false indent (lines.length + 1) false [] [] indent lines =
      some (content, lineBreak, breaks, next)) :
    block? false outer text =
      some (content ++ (match header.chomp with
        | .strip => []
        | .clip => lineBreak
        | .keep => lineBreak ++ breaks), next) := by
  rw [block?, headed]
  simp only [Option.bind_eq_bind, Option.bind_some, told, indented, found, read]
  rfl

/-- A literal is read back when its first line tells its indentation, or when the
step that its header names is the one it is indented by. -/
theorem block?_laid (laid : Laid text content trail) (noTab : text.head? ≠ some '\t')
    (stepped : text.head? = some ' ' → (max outer 0).toNat + 4 = indent) (known : 0 < indent)
    (inside : outer < indent) (outside : count < indent) (noGap : NoGap next) :
    block? false outer
        (indentMark text ++ (chompOf trail).mark ++ '\n' ::
          (List.replicate indent ' ' ++ (literalLines indent .inside content ++
            (closing trail ++ (List.replicate count ' ' ++ next))))) =
      some (text, next) := by
  obtain ⟨first, more, begins, noBreak⟩ := laid.first_noBreak
  have head : text.head? = some first := by
    rw [laid.eq_append, begins]
    rfl
  rw [head] at noTab stepped
  have mark : indentMark text = if first == ' ' then ['4'] else [] := by
    rw [indentMark, head]
    simp [noBreak]
  have enough : text.length < (literalLines indent .inside content ++
      (closing trail ++ (List.replicate count ' ' ++ next))).length + 1 := by
    have kept : content.length ≤ (literalLines indent .inside content).length :=
      length_le_literalLines .inside content
    have closed : trail.length ≤ (closing trail).length := by
      unfold closing
      split <;> simp_all
    rw [laid.eq_append]
    simp only [List.length_append]
    omega
  have starts : literalLines indent .inside content =
      first :: literalLines indent .inside more := by
    rw [begins, literalLines, noBreak]
    rfl
  have read : blockLines? false indent _ false [] [] indent _ = some ([] ++ [] ++ content, _) :=
    blockLines?_laid known outside noGap laid enough
  have headed := blockHeader?_marks (first == ' ') (chompOf trail) (List.replicate indent ' ' ++
    (literalLines indent .inside content ++ (closing trail ++ (List.replicate count ' ' ++ next))))
  have whole : content ++ trail = text := laid.eq_append.symm
  rw [← mark] at headed
  -- Only a space in front makes the header name the step.
  cases spaced : first == ' ' with
  | true =>
      rw [spaced] at headed
      have told : (max outer 0).toNat + 4 = indent := stepped (by simpa using spaced)
      have indented : indentation? indent 0 0 [] (List.replicate indent ' ' ++
          (literalLines indent .inside content ++
            (closing trail ++ (List.replicate count ' ' ++ next)))) =
          some ([], indent, indent, literalLines indent .inside content ++
            (closing trail ++ (List.replicate count ' ' ++ next))) := by
        rw [indentation?_spaces (.inr (by omega)), Nat.zero_add, starts, List.cons_append,
          indentation?_content known noBreak, Nat.zero_max]
      have found :
          (if indent == 0 then max indent (max (outer + 1).toNat 1) else indent) = indent := by
        simp [Nat.ne_of_gt known]
      rw [block?_of_lines headed told indented found read, closing_eq]
      simp [whole]
  | false =>
      rw [spaced] at headed
      have stops : NoGap (literalLines indent .inside content ++
          (closing trail ++ (List.replicate count ' ' ++ next))) := by
        rw [starts]
        rintro _ ⟨⟩
        simpa [isGap, isBlank, noBreak, spaced] using noTab
      have indented : indentation? 0 0 0 [] (List.replicate indent ' ' ++
          (literalLines indent .inside content ++
            (closing trail ++ (List.replicate count ' ' ++ next)))) =
          some ([], indent, indent, literalLines indent .inside content ++
            (closing trail ++ (List.replicate count ' ' ++ next))) := by
        rw [indentation?_spaces (.inl rfl), Nat.zero_add, indentation?_stop stops, Nat.zero_max]
      have found : (if 0 == 0 then max indent (max (outer + 1).toNat 1) else 0) = indent := by
        simp only [beq_self_eq_true, if_true]
        omega
      rw [block?_of_lines headed rfl indented found read, closing_eq]
      simp [whole]

end Header

end Stencil.Yaml
