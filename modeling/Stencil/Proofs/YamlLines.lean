import Stencil.Proofs.YamlBlock
import Stencil.Yaml.Lexer

/-!
# Lines of entries and their tokens

The lexer comes from one place where a key may begin to the next.  What it keeps
between two such places is a frame: the columns of the open collections, and the
tokens so far.  An entry on lines of its own takes one frame to another, and so
do entries one after the other.
-/

namespace Stencil.Yaml

/-- The open collections and the tokens in front of a place. -/
structure Frame where
  /-- The column of the innermost collection. -/
  indent : Int := -1
  /-- The columns of the collections around it. -/
  outer : List Int := []
  /-- The tokens so far, first to last. -/
  read : List Token := []

namespace Frame

/-- Adds tokens. -/
def emit (frame : Frame) (tokens : List Token) : Frame :=
  { frame with read := frame.read ++ tokens }

/-- Opens a collection at a column that lies further in. -/
def enter (frame : Frame) (column : Nat) (token : Token) : Frame :=
  if frame.indent < column then
    { indent := column, outer := frame.indent :: frame.outer, read := frame.read ++ [token] }
  else frame

/-- Closes collections one by one while they lie further in than a column. -/
def leaveAll (column : Int) : List Int → Frame → Frame
  | [], frame => frame
  | indent :: outer, frame =>
      if column < frame.indent then
        leaveAll column outer { indent, outer, read := frame.read ++ [.blockEnd] }
      else frame

/-- Closes the collections that lie further in than a column. -/
def leave (frame : Frame) (column : Int) : Frame :=
  leaveAll column frame.outer frame

end Frame

namespace Lexer

/-- A lexer outside of brackets that has no candidate for a key. -/
def between (text : List Char) (column : Nat) (keyAllowed : Bool) (frame : Frame)
    (index line : Nat) : Lexer :=
  { rest := text, index, line, column, keyAllowed
    indent := frame.indent, outer := frame.outer, tokens := frame.read.reverse }

section Between

variable {text next : List Char} {column : Nat} {keyAllowed : Bool} {frame : Frame}
  {index line : Nat}

theorem emit_between (token : Token) :
    (between text column keyAllowed frame index line).emit token =
      between text column keyAllowed (frame.emit [token]) index line := by
  simp [between, emit, Frame.emit]

theorem unroll_between (far : Int) :
    unroll far frame.outer (between text column keyAllowed frame index line) =
      between text column keyAllowed (frame.leave far) index line := by
  obtain ⟨indent, outer, read⟩ := frame
  rw [Frame.leave]
  induction outer generalizing indent read with
  | nil => rfl
  | cons next outer ih =>
      by_cases inside : far < indent
      · have closed := ih next (read ++ [.blockEnd])
        simpa [unroll, Frame.leaveAll, between, inFlow, emit, inside] using closed
      · simp [unroll, Frame.leaveAll, between, inFlow, inside]

end Between

/-! ## Moving -/

section Moving

variable {lexer : Lexer} {passed text : List Char}

theorem moveTo_append (passed : List Char) (whole : lexer.rest = passed ++ text) :
    lexer.moveTo text = { passed.foldl advance lexer with rest := text } := by
  have taken : lexer.rest.take (lexer.rest.length - text.length) = passed := by
    rw [whole, List.length_append, Nat.add_sub_cancel, List.take_left]
  rw [moveTo, taken]

theorem moveTo_self : lexer.moveTo lexer.rest = lexer :=
  moveTo_append [] (List.nil_append _).symm

theorem advance_line (line : OneLine passed) (lexer : Lexer) :
    passed.foldl advance lexer =
      { lexer with
        index := lexer.index + passed.length, column := lexer.column + passed.length } := by
  induction passed generalizing lexer with
  | nil => rfl
  | cons char passed ih =>
      obtain ⟨noBreak, later⟩ := List.forall_mem_cons.mp line
      rw [List.foldl_cons, ih later, advance, noBreak, if_neg Bool.false_ne_true]
      simp only [List.length_cons]
      rw [Nat.add_assoc, Nat.add_assoc, Nat.add_comm 1]

theorem advance_any (passed : List Char) (lexer : Lexer) :
    ∃ index line column, passed.foldl advance lexer = { lexer with index, line, column } := by
  induction passed generalizing lexer with
  | nil => exact ⟨_, _, _, rfl⟩
  | cons char passed ih =>
      obtain ⟨index, line, column, same⟩ := ih (lexer.advance char)
      refine ⟨index, line, column, ?_⟩
      rw [List.foldl_cons, same, advance]
      split <;> rfl

/-- Over the end of a line, spaces tell the column. -/
theorem advance_lines {char : Char} (ends : isBreak char = true) (passed : List Char)
    (count : Nat) (lexer : Lexer) :
    ∃ index line, (passed ++ char :: List.replicate count ' ').foldl advance lexer =
      { lexer with index, line, column := count } := by
  obtain ⟨index, line, column, same⟩ := advance_any passed lexer
  have spaces : OneLine (List.replicate count ' ') := by
    intro space member
    rw [List.eq_of_mem_replicate member]
    rfl
  refine ⟨index + 1 + count, line + 1, ?_⟩
  rw [List.foldl_append, same, List.foldl_cons, advance_line spaces, advance, ends, if_pos rfl]
  simp

variable {column : Nat} {keyAllowed : Bool} {frame : Frame} {index line : Nat}

theorem moveTo_line (passed : List Char) (whole : OneLine passed) :
    (between (passed ++ text) column keyAllowed frame index line).moveTo text =
      between text (column + passed.length) keyAllowed frame (index + passed.length) line := by
  rw [moveTo_append passed rfl, advance_line whole]
  rfl

theorem moveTo_lines {char : Char} (ends : isBreak char = true) (passed : List Char)
    (count : Nat) :
    ∃ nextIndex nextLine,
      (between (passed ++ char :: (List.replicate count ' ' ++ text)) column keyAllowed frame index
        line).moveTo text = between text count keyAllowed frame nextIndex nextLine := by
  obtain ⟨nextIndex, nextLine, moved⟩ := advance_lines ends passed count
    (between (passed ++ char :: (List.replicate count ' ' ++ text)) column keyAllowed frame index
      line)
  have whole : (between (passed ++ char :: (List.replicate count ' ' ++ text)) column keyAllowed
      frame index line).rest = (passed ++ char :: List.replicate count ' ') ++ text := by
    simp [between]
  refine ⟨nextIndex, nextLine, ?_⟩
  rw [moveTo_append _ whole, moved]
  rfl

end Moving

/-! ## Between tokens -/

/-- A token begins here, if anything does. -/
structure Begins (text : List Char) : Prop where
  noGap : NoGap text
  noComment : text.head? ≠ some '#'

theorem begins_nil : Begins [] :=
  ⟨nofun, nofun⟩

theorem begins_cons {char : Char} (noGap : isGap char = false) (noComment : char ≠ '#')
    (text : List Char) : Begins (char :: text) := by
  refine ⟨?_, by simpa using noComment⟩
  rintro _ ⟨⟩
  exact noGap

section Skipping

variable {text : List Char} {column count : Nat} {keyAllowed : Bool} {frame : Frame}
  {index line budget : Nat}

theorem skipToToken_to {lexer : Lexer} (begins : Begins text)
    (blanks : lexer.rest.dropWhile (fun char => char == ' ' ||
      ((lexer.inFlow || !lexer.keyAllowed) && char == '\t')) = text) :
    skipToToken (budget + 1) lexer = lexer.moveTo text := by
  have noComment : (text.head? == some '#') = false := by
    simpa using begins.noComment
  rw [skipToToken]
  simp only [blanks, noComment, Bool.false_eq_true, if_false]
  cases text with
  | nil => rfl
  | cons char text =>
      obtain ⟨-, noBreak⟩ := isGap_eq_false.mp (begins.noGap char rfl)
      simp [noBreak]

theorem skipToToken_break {lexer : Lexer} {char : Char} (ends : isBreak char = true)
    (blanks : lexer.rest.dropWhile (fun char => char == ' ' ||
      ((lexer.inFlow || !lexer.keyAllowed) && char == '\t')) = char :: text) :
    skipToToken (budget + 1) lexer =
      skipToToken budget
        { lexer.moveTo text with keyAllowed := lexer.keyAllowed || !lexer.inFlow } := by
  have noComment : ((char :: text).head? == some '#') = false := by
    rw [List.head?_cons, beq_eq_false_iff_ne]
    rintro ⟨⟩
    cases ends
  rw [skipToToken]
  simp only [blanks, noComment, Bool.false_eq_true, if_false, ends, if_true]

theorem dropWhile_spaces (noGap : NoGap text) (tabs : Bool) :
    (List.replicate count ' ' ++ text).dropWhile
      (fun char => char == ' ' || (tabs && char == '\t')) = text := by
  rw [List.dropWhile_append_of_pos (by simp)]
  cases text with
  | nil => rfl
  | cons char text =>
      obtain ⟨noBlank, -⟩ := isGap_eq_false.mp (noGap char rfl)
      rw [isBlank, Bool.or_eq_false_iff] at noBlank
      simp [noBlank.1, noBlank.2]

theorem skipToToken_spaces (begins : Begins text) (count : Nat) :
    skipToToken (budget + 1)
        (between (List.replicate count ' ' ++ text) column keyAllowed frame index line) =
      between text (column + count) keyAllowed frame (index + count) line := by
  have spaces : OneLine (List.replicate count ' ') := by
    intro space member
    rw [List.eq_of_mem_replicate member]
    rfl
  rw [skipToToken_to begins (dropWhile_spaces begins.noGap _), moveTo_line _ spaces,
    List.length_replicate]

/-- The end of a line lets a key begin. -/
theorem skipToToken_lineEnd (begins : Begins text) :
    ∃ nextIndex nextLine,
      skipToToken (budget + 2) (between ('\n' :: (List.replicate count ' ' ++ text)) column
          keyAllowed frame index line) =
        between text count true frame nextIndex nextLine := by
  obtain ⟨nextIndex, nextLine, moved⟩ : ∃ nextIndex nextLine,
      (between ('\n' :: (List.replicate count ' ' ++ text)) column keyAllowed frame index
        line).moveTo (List.replicate count ' ' ++ text) =
      between (List.replicate count ' ' ++ text) 0 keyAllowed frame nextIndex nextLine :=
    moveTo_lines rfl [] 0
  refine ⟨nextIndex + count, nextLine, ?_⟩
  have noBlank : ∀ tabs, ('\n' :: (List.replicate count ' ' ++ text)).dropWhile
      (fun char => char == ' ' || (tabs && char == '\t')) =
        '\n' :: (List.replicate count ' ' ++ text) := by
    simp
  rw [skipToToken_break rfl (noBlank _), moved]
  exact (skipToToken_spaces begins count).trans (by simp [between, inFlow])

end Skipping

/-- The next token begins with a text at a column, and a key may begin there. -/
structure Reaches (lexer : Lexer) (text : List Char) (column : Nat) (frame : Frame) : Prop where
  tokens : lexer.tokens = frame.read.reverse
  skips : ∃ index line,
    skipToToken (lexer.rest.length + 1) lexer = between text column true frame index line

section Reaches

variable {text : List Char} {column count : Nat} {keyAllowed : Bool} {frame : Frame}
  {index line : Nat}

theorem reaches_spaces (begins : Begins text) (count : Nat) :
    (between (List.replicate count ' ' ++ text) column true frame index line).Reaches text
      (column + count) frame :=
  ⟨rfl, _, _, skipToToken_spaces begins count⟩

theorem reaches_here (begins : Begins text) :
    (between text column true frame index line).Reaches text column frame :=
  reaches_spaces begins 0

theorem reaches_lineEnd (begins : Begins text) :
    (between ('\n' :: (List.replicate count ' ' ++ text)) column keyAllowed frame index
      line).Reaches text count frame :=
  ⟨rfl, skipToToken_lineEnd begins⟩

end Reaches

/-- One step of a run. -/
theorem run_succ {lexer skipped unrolled after : Lexer}
    (skips : skipToToken (lexer.rest.length + 1) lexer = skipped)
    (unrolls : unroll skipped.column skipped.outer skipped = unrolled)
    (reads : unrolled.token? = some after) (goesOn : after.tokens.head? ≠ some .streamEnd)
    (budget : Nat) : run (budget + 1) lexer = run budget after := by
  have notLast : (after.tokens.head? == some .streamEnd) = false := by
    simpa using goesOn
  rw [run, skips]
  simp only [unrolls, reads, notLast, Bool.false_eq_true, if_false]

/-- The last step of a run. -/
theorem run_last {lexer skipped unrolled after : Lexer}
    (skips : skipToToken (lexer.rest.length + 1) lexer = skipped)
    (unrolls : unroll skipped.column skipped.outer skipped = unrolled)
    (reads : unrolled.token? = some after) (last : after.tokens.head? = some .streamEnd)
    (budget : Nat) : run (budget + 1) lexer = after.tokens.reverse := by
  rw [run, skips]
  simp only [unrolls, reads, last, beq_self_eq_true, if_true]

theorem unroll_of_le {lexer : Lexer} {column : Int} (inside : lexer.indent ≤ column)
    (outer : List Int) : unroll column outer lexer = lexer := by
  cases outer with
  | nil => rfl
  | cons indent outer =>
      rw [unroll]
      simp [Int.not_lt.mpr inside]

/-! ## Keys -/

/-- The letters of keys. -/
def isKeyLetter (char : Char) : Bool :=
  ('a' ≤ char && char ≤ 'z') || char == '_'

theorem not_mem_of_isKeyLetter {char : Char} (letter : isKeyLetter char = true) (marks : List Char)
    (others : marks.all (fun mark => !isKeyLetter mark) = true) : char ∉ marks := by
  intro member
  have other := List.all_eq_true.mp others char member
  rw [letter] at other
  cases other

/-- A word that may stand as a key. -/
structure Key (word : List Char) : Prop where
  filled : word ≠ []
  short : word.length ≤ 1024
  letters : ∀ char ∈ word, isKeyLetter char = true

section Key

variable {word text : List Char} {column : Nat} {frame : Frame} {index line : Nat}

theorem isGap_of_isKeyLetter {char : Char} (letter : isKeyLetter char = true) :
    isGap char = false := by
  have apart := not_mem_of_isKeyLetter letter
    [' ', '\t', '\n', '\u2028', '\u2029'] (by decide)
  simpa [isGap, isBlank, isBreak, and_assoc] using apart

theorem plainBody_key (letters : ∀ char ∈ word, isKeyLetter char = true)
    (gap : gapFollows text = true) {indent : Int} {budget : Nat} :
    plainBody indent budget (word ++ ':' :: text) = some (word, false, ':' :: text) := by
  induction word with
  | nil =>
      have stretch : plainStretch false (':' :: text) = ([], ':' :: text) := by
        rw [plainStretch, gap]
        rfl
      rw [List.nil_append, plainBody, stretch]
      rfl
  | cons char word ih =>
      obtain ⟨letter, later⟩ := List.forall_mem_cons.mp letters
      have noColon : (char == ':') = false := by
        simpa using not_mem_of_isKeyLetter letter [':'] (by decide)
      rw [List.cons_append, plainBody_cons (isGap_of_isKeyLetter letter) (by rw [noColon]; rfl),
        ih later]
      rfl

theorem Key.oneLine (key : Key word) : OneLine word := by
  intro char member
  exact (isGap_eq_false.mp (isGap_of_isKeyLetter (key.letters char member))).2

/-- The marks that begin no scalar without quotes. -/
def plainMarks : List Char :=
  [',', '[', ']', '\x7b', '\x7d', '#', '&', '*', '!', '|', '>', '\'', '"', '%', '@', '\x60']

theorem contentToken?_plain {lexer : Lexer} (outside : lexer.inFlow = false) {char : Char}
    (noGap : isGap char = false) (noMark : char ∉ plainMarks)
    (goesOn : char ∈ ['-', '?', ':'] → gapFollows text = false) :
    lexer.contentToken? char text = lexer.plainScalar? := by
  have noBlank : gapFollows text = false → text.head?.any isBlank = false := by
    intro follows
    cases text with
    | nil => rfl
    | cons next text => exact (isGap_eq_false.mp follows).1
  have begins : beginsPlain false char text = true := by
    by_cases sign : char ∈ ['-', '?', ':']
    · have follows := goesOn sign
      simp only [List.mem_cons, List.not_mem_nil, or_false] at sign
      rcases sign with rfl | rfl | rfl <;> simp [beginsPlain, follows, noBlank follows]
    · have noIndicator : isIndicator char = false := by
        have marks : "-?:,[]\x7b\x7d#&*!|>'\"%@\x60".toList = ['-', '?', ':'] ++ plainMarks := by
          decide
        rw [isIndicator, marks, List.contains_eq_mem, decide_eq_false_iff_not, List.mem_append,
          not_or]
        exact ⟨sign, noMark⟩
      simp [beginsPlain, noGap, noIndicator]
  have noSign : ∀ sign ∈ ['-', '?', ':'], (char == sign && gapFollows text) = false := by
    intro sign member
    rw [Bool.and_eq_false_iff, beq_eq_false_iff_ne]
    by_cases same : char = sign
    · exact .inr (goesOn (same ▸ member))
    · exact .inl same
  have dash := noSign '-' (by decide)
  have question := noSign '?' (by decide)
  have colon := noSign ':' (by decide)
  simp only [plainMarks, List.mem_cons, List.not_mem_nil, or_false, not_or,
    ← beq_eq_false_iff_ne] at noMark
  simp only [contentToken?, outside, Bool.false_or, dash, question, colon, noMark, begins,
    Bool.false_and, Bool.false_eq_true, if_false, if_true]

/-- Behind a word that may become a key. -/
def keyed (word text : List Char) (column : Nat) (frame : Frame) (index line : Nat) : Lexer :=
  { between (':' :: text) (column + word.length) false (frame.emit [.scalar true word])
      (index + word.length) line with
    candidate := some
      { number := frame.read.length, index, line, column
        required := frame.indent == (column : Int) } }

theorem skipLineComment_of_ne {lexer : Lexer}
    (noComment : (lexer.rest.dropWhile isBlank).head? ≠ some '#') :
    lexer.skipLineComment = lexer := by
  unfold skipLineComment
  split
  · next begins =>
      rw [begins] at noComment
      exact absurd rfl noComment
  · rfl

theorem token?_content {lexer : Lexer} {char : Char} (here : lexer.rest = char :: text)
    (noDirective : (lexer.column == 0 && char == '%') = false)
    (noMark : (lexer.column == 0 && isDocumentMark (char :: text)) = false) :
    lexer.token? = lexer.contentToken? char text := by
  unfold token?
  simp only [here, noDirective, noMark, Bool.false_eq_true, if_false]

theorem plainScalar?_eq {lexer saved : Lexer} {content next : List Char} {broken : Bool}
    (saves : lexer.saveCandidate? = some saved)
    (reads : plain? saved.inFlow (saved.indent + 1) (saved.rest.length + 1) false saved.rest =
      some (content, broken, next)) :
    lexer.plainScalar? =
      let after := ({ saved with keyAllowed := broken }.moveTo next).emit (.scalar true content)
      some (if broken then after else after.skipLineComment) := by
  rw [plainScalar?, saves]
  simp only [Option.bind_eq_bind, Option.bind_some, reads]
  rfl

theorem token?_key (key : Key word) (gap : gapFollows text = true) :
    (between (word ++ ':' :: text) column true frame index line).token? =
      some (keyed word text column frame index line) := by
  obtain ⟨first, more, rfl⟩ := List.exists_cons_of_ne_nil key.filled
  have letter := key.letters first List.mem_cons_self
  have apart := not_mem_of_isKeyLetter letter
  have noPercent : (first == '%') = false := by
    simpa using apart ['%'] (by decide)
  have noMark : isDocumentMark (first :: more ++ ':' :: text) = false := by
    have others := apart ['-', '.'] (by decide)
    simp only [List.mem_cons, List.not_mem_nil, or_false, not_or] at others
    rw [List.cons_append, isDocumentMark]
    · simp_all
    · simp_all
  have plain : (between (first :: more ++ ':' :: text) column true frame index
      line).contentToken? first (more ++ ':' :: text) =
      (between (first :: more ++ ':' :: text) column true frame index line).plainScalar? := by
    apply contentToken?_plain rfl (isGap_of_isKeyLetter letter) (apart _ (by decide))
    intro sign
    exact absurd sign (apart _ (by decide))
  have noComment : (first :: more ++ ':' :: text).head? ≠ some '#' := by
    simpa using apart ['#'] (by decide)
  have here : (between (first :: more ++ ':' :: text) column true frame index line).rest =
      first :: (more ++ ':' :: text) := rfl
  have saved : (between (first :: more ++ ':' :: text) column true frame index
      line).saveCandidate? = some
        { between (first :: more ++ ':' :: text) column true frame index line with
          candidate := some
            { number := frame.read.length, index, line, column
              required := frame.indent == (column : Int) } } := by
    simp [saveCandidate?, dropCandidate?, between, inFlow]
  rw [token?_content here (by rw [noPercent, Bool.and_false])
      (by rw [← List.cons_append, noMark, Bool.and_false]),
    plain, plainScalar?_eq saved ((plain?_succ noComment).trans (plainBody_key key.letters gap))]
  dsimp only
  rw [if_neg Bool.false_ne_true, moveTo_append (first :: more) rfl,
    advance_line key.oneLine, skipLineComment_of_ne (by simp [emit, isBlank])]
  simp [keyed, between, emit, Frame.emit]

theorem liveCandidate?_keyed (key : Key word) :
    (keyed word text column frame index line).liveCandidate? =
      some (some { number := frame.read.length, index, line, column
                   required := frame.indent == (column : Int) }) := by
  have near : ¬ index + 1024 < index + word.length := by
    have short := key.short
    omega
  simp [liveCandidate?, keyed, between, near]

/-- The candidate becomes a key, in a mapping that is opened where none is open. -/
theorem insert_keyed :
    ((keyed word text column frame index line).insert frame.read.length [.key]).roll column
        frame.read.length .mappingStart =
      { keyed word text column frame index line with
        indent := (frame.enter column .mappingStart).indent
        outer := (frame.enter column .mappingStart).outer
        tokens := .scalar true word :: .key ::
          (frame.enter column .mappingStart).read.reverse } := by
  have behind : frame.read.length + 1 + 1 - frame.read.length = 2 := by omega
  by_cases inside : frame.indent < column
  · simp [roll, insert, keyed, between, inFlow, Frame.emit, Frame.enter, inside, behind]
  · simp [roll, insert, keyed, between, inFlow, Frame.emit, Frame.enter, inside]

theorem value?_candidate {lexer : Lexer} {candidate : Candidate}
    (live : lexer.liveCandidate? = some (some candidate)) (rest : List Char) :
    lexer.value? rest =
      some (({ (lexer.insert candidate.number [.key]).roll candidate.column candidate.number
          .mappingStart with candidate := none, keyAllowed := false }.moveTo rest).emit .value) := by
  rw [value?, live]
  rfl

theorem token?_keyed (key : Key word) (gap : gapFollows text = true)
    (noComment : (text.dropWhile isBlank).head? ≠ some '#') :
    (keyed word text column frame index line).token? =
      some (between text (column + word.length + 1) false
        ((frame.enter column .mappingStart).emit [.key, .scalar true word, .value])
        (index + word.length + 1) line) := by
  have here : (keyed word text column frame index line).rest = ':' :: text := rfl
  have inside : ((keyed word text column frame index line).column == 0) = false := by
    simp [keyed, between, key.filled]
  rw [token?_content here (by rw [inside, Bool.false_and]) (by rw [inside, Bool.false_and])]
  have colon : (keyed word text column frame index line).contentToken? ':' text =
      ((keyed word text column frame index line).value? text).map skipLineComment := by
    simp [contentToken?, gap]
  rw [colon, value?_candidate (liveCandidate?_keyed key), Option.map_some, insert_keyed,
    moveTo_append [':'] rfl, advance_line (by simp [OneLine, isBreak]),
    skipLineComment_of_ne (by simpa [emit] using noComment)]
  simp [keyed, between, emit, Frame.emit]

/-- A key and its colon are two steps. -/
theorem Reaches.run_key {lexer : Lexer} (key : Key word) (gap : gapFollows text = true)
    (noComment : (text.dropWhile isBlank).head? ≠ some '#')
    (reaches : lexer.Reaches (word ++ ':' :: text) column frame)
    (inside : (frame.leave column).indent ≤ column) :
    ∃ index line, ∀ budget, run (budget + 2) lexer =
      run budget (between text (column + word.length + 1) false
        (((frame.leave column).enter column .mappingStart).emit [.key, .scalar true word, .value])
        index line) := by
  obtain ⟨index, line, skips⟩ := reaches.skips
  refine ⟨index + word.length + 1, line, fun budget => ?_⟩
  have first := run_succ skips (unroll_between column) (token?_key key gap)
    (by simp [keyed, between, Frame.emit]) (budget + 1)
  have begins : Begins (':' :: text) := begins_cons rfl (by decide) text
  have skipped : ∀ budget, skipToToken (budget + 1)
      (keyed word text column (frame.leave column) index line) =
        keyed word text column (frame.leave column) index line := by
    intro budget
    rw [skipToToken_to begins (by simp [keyed, between])]
    exact moveTo_self
  have unrolled : unroll (column + word.length : Nat) (frame.leave column).outer
      (keyed word text column (frame.leave column) index line) =
        keyed word text column (frame.leave column) index line :=
    unroll_of_le (show (frame.leave column).indent ≤ _ by omega) _
  have second := run_succ (skipped _) unrolled (token?_keyed key gap noComment)
    (by simp [between, Frame.emit]) budget
  exact first.trans second

end Key

/-! ## Items -/

section Items

variable {text : List Char} {column : Nat} {keyAllowed : Bool} {frame : Frame} {index line : Nat}

theorem roll_between (token : Token) :
    (between text column keyAllowed frame index line).roll column
        (between text column keyAllowed frame index line).tokens.length token =
      between text column keyAllowed (frame.enter column token) index line := by
  by_cases inside : frame.indent < column
  · simp [roll, insert, between, inFlow, Frame.enter, inside]
  · simp [roll, between, inFlow, Frame.enter, inside]

theorem token?_item :
    (between ('-' :: ' ' :: text) column true frame index line).token? =
      some (between (' ' :: text) (column + 1) true
        ((frame.enter column .sequenceStart).emit [.item]) (index + 1) line) := by
  have here : (between ('-' :: ' ' :: text) column true frame index line).rest =
      '-' :: ' ' :: text := rfl
  have rolled : (between ('-' :: ' ' :: text) column true frame index line).roll
      (between ('-' :: ' ' :: text) column true frame index line).column
      (between ('-' :: ' ' :: text) column true frame index line).tokens.length .sequenceStart =
      between ('-' :: ' ' :: text) column true (frame.enter column .sequenceStart) index line :=
    roll_between .sequenceStart
  have moved : (between ('-' :: ' ' :: text) column true (frame.enter column .sequenceStart) index
      line).moveTo (' ' :: text) = between (' ' :: text) (column + 1) true
        (frame.enter column .sequenceStart) (index + 1) line :=
    moveTo_line ['-'] (by simp [OneLine, isBreak])
  rw [token?_content here (Bool.and_false _) (Bool.and_false _)]
  have dash : (between ('-' :: ' ' :: text) column true frame index line).contentToken? '-'
      (' ' :: text) = (between ('-' :: ' ' :: text) column true frame index line).item?
        (' ' :: text) := by
    simp [contentToken?, gapFollows, isGap, isBlank]
  rw [dash, item?, rolled]
  refine Eq.trans ?_ (congrArg (fun lexer => some (emit lexer .item)) moved |>.trans
    (by rw [emit_between]))
  rfl

theorem token?_end :
    (between [] column true frame index line).token? =
      some (between [] column false ((frame.leave (-1)).emit [.streamEnd]) index line) := by
  have unrolled : unroll (-1) frame.outer (between [] column true frame index line) =
      between [] column true (frame.leave (-1)) index line := unroll_between (-1)
  have ends : (between [] column true frame index line).token? =
      ((unroll (-1) frame.outer (between [] column true frame index line)).dropCandidate?).bind
        fun lexer => some ({ lexer with keyAllowed := false }.emit .streamEnd) := rfl
  rw [ends, unrolled]
  exact congrArg some (emit_between .streamEnd)

/-- Behind an opening bracket. -/
def inBrackets (text : List Char) (column : Nat) (frame : Frame) (index line : Nat) : Lexer :=
  { between text column true frame index line with pending := [none] }

theorem token?_opening :
    (between ('[' :: ']' :: text) column false frame index line).token? =
      some (inBrackets (']' :: text) (column + 1) (frame.emit [.flowSequenceStart]) (index + 1)
        line) := by
  have here : (between ('[' :: ']' :: text) column false frame index line).rest =
      '[' :: ']' :: text := rfl
  have moved : (between ('[' :: ']' :: text) column false frame index line).moveTo (']' :: text) =
      between (']' :: text) (column + 1) false frame (index + 1) line :=
    moveTo_line ['['] (by simp [OneLine, isBreak])
  have opened : (between ('[' :: ']' :: text) column false frame index line).openFlow?
      .flowSequenceStart (']' :: text) =
      some (inBrackets (']' :: text) (column + 1) (frame.emit [.flowSequenceStart]) (index + 1)
        line) := by
    have kept : (between ('[' :: ']' :: text) column false frame index line).saveCandidate? =
        some (between ('[' :: ']' :: text) column false frame index line) := rfl
    rw [openFlow?, kept]
    simp only [Option.bind_eq_bind, Option.bind_some, moved]
    simp [between, inBrackets, emit, Frame.emit]
  rw [token?_content here (Bool.and_false _) (Bool.and_false _)]
  simp only [contentToken?, opened, beq_self_eq_true, if_true, Option.map_some]
  rw [skipLineComment_of_ne (by simp [inBrackets, between, isBlank])]

theorem token?_closing :
    (inBrackets (']' :: '\n' :: text) column frame index line).token? =
      some (between ('\n' :: text) (column + 1) false (frame.emit [.flowSequenceEnd]) (index + 1)
        line) := by
  have here : (inBrackets (']' :: '\n' :: text) column frame index line).rest =
      ']' :: '\n' :: text := rfl
  have moved : (between (']' :: '\n' :: text) column false frame index line).moveTo ('\n' :: text) =
      between ('\n' :: text) (column + 1) false frame (index + 1) line :=
    moveTo_line [']'] (by simp [OneLine, isBreak])
  have closed : (inBrackets (']' :: '\n' :: text) column frame index line).closeFlow?
      .flowSequenceEnd ('\n' :: text) =
      some (between ('\n' :: text) (column + 1) false (frame.emit [.flowSequenceEnd]) (index + 1)
        line) := by
    exact congrArg (fun lexer => some (emit lexer .flowSequenceEnd)) moved |>.trans
      (by rw [emit_between])
  rw [token?_content here (Bool.and_false _) (Bool.and_false _)]
  simp only [contentToken?, closed, beq_self_eq_true, if_true, Option.map_some]
  rw [if_neg (by decide), if_neg (by decide),
    skipLineComment_of_ne (by simp [between, isBlank])]

/-- Empty brackets are two steps. -/
theorem run_brackets (inside : frame.indent ≤ column) (budget : Nat) :
    run (budget + 2) (between (' ' :: '[' :: ']' :: '\n' :: text) column false frame index line) =
      run budget (between ('\n' :: text) (column + 3) false
        (frame.emit [.flowSequenceStart, .flowSequenceEnd]) (index + 3) line) := by
  have openBegins : Begins ('[' :: ']' :: '\n' :: text) := begins_cons rfl (by decide) _
  have closeBegins : Begins (']' :: '\n' :: text) := begins_cons rfl (by decide) _
  have opened : run (budget + 2)
      (between (' ' :: '[' :: ']' :: '\n' :: text) column false frame index line) =
      run (budget + 1) (inBrackets (']' :: '\n' :: text) (column + 2)
        (frame.emit [.flowSequenceStart]) (index + 2) line) := by
    refine run_succ (skipToToken_spaces openBegins 1) (unroll_of_le ?_ _)
      token?_opening (by simp [inBrackets, between, Frame.emit]) _
    exact Int.le_trans inside (Int.ofNat_le.mpr (Nat.le_succ _))
  have skipped : ∀ budget, skipToToken (budget + 1) (inBrackets (']' :: '\n' :: text) (column + 2)
      (frame.emit [.flowSequenceStart]) (index + 2) line) =
        inBrackets (']' :: '\n' :: text) (column + 2) (frame.emit [.flowSequenceStart]) (index + 2)
          line := by
    intro budget
    rw [skipToToken_to closeBegins (by simp [inBrackets, between])]
    exact moveTo_self
  have unrolled : unroll (column + 2 : Nat) frame.outer (inBrackets (']' :: '\n' :: text)
      (column + 2) (frame.emit [.flowSequenceStart]) (index + 2) line) =
        inBrackets (']' :: '\n' :: text) (column + 2) (frame.emit [.flowSequenceStart]) (index + 2)
          line := by
    cases frame.outer <;> rfl
  have closed := run_succ (skipped _) unrolled token?_closing (by simp [between, Frame.emit]) budget
  have both : (frame.emit [.flowSequenceStart]).emit [.flowSequenceEnd] =
      frame.emit [.flowSequenceStart, .flowSequenceEnd] := by
    simp [Frame.emit]
  rw [opened, closed, both]

end Items

/-! ## Scalars -/

/-- A scalar with the end of its line is one token, in front of a line that is indented
by at most `limit`. -/
structure ScalarLine (limit : Nat) (body : List Char) (token : Token) : Prop where
  begins : ∀ next, Begins (body ++ next)
  reads : ∀ {count column index line : Nat} {next : List Char} {frame : Frame}, count ≤ limit →
    Begins next → 0 < column → frame.indent = limit →
      ∃ after, (between (body ++ (List.replicate count ' ' ++ next)) column false frame index
        line).token? = some after ∧ after.Reaches next count (frame.emit [token])

section Scalars

variable {limit : Nat} {text : List Char}

theorem moveTo_any {column index line : Nat} {keyAllowed : Bool} {frame : Frame}
    (passed : List Char) :
    ∃ nextIndex nextLine nextColumn,
      (between (passed ++ text) column keyAllowed frame index line).moveTo text =
        between text nextColumn keyAllowed frame nextIndex nextLine := by
  obtain ⟨nextIndex, nextLine, nextColumn, moved⟩ :=
    advance_any passed (between (passed ++ text) column keyAllowed frame index line)
  refine ⟨nextIndex, nextLine, nextColumn, ?_⟩
  rw [moveTo_append _ rfl, moved]
  rfl

theorem token?_inside {char : Char} {column index line : Nat} {keyAllowed : Bool} {frame : Frame}
    (inside : 0 < column) :
    (between (char :: text) column keyAllowed frame index line).token? =
      (between (char :: text) column keyAllowed frame index line).contentToken? char text := by
  have notFirst : ((between (char :: text) column keyAllowed frame index line).column == 0) =
      false := by
    simpa [between] using Nat.ne_of_gt inside
  exact token?_content rfl (by rw [notFirst, Bool.false_and]) (by rw [notFirst, Bool.false_and])

/-- A token that may begin a key, where none can. -/
theorem keyToken?_eq {token : Token} {passed next : List Char} {column index line count : Nat}
    {frame : Frame} (begins : Begins next) :
    ∃ after,
      ((between (passed ++ '\n' :: (List.replicate count ' ' ++ next)) column false frame index
        line).keyToken? (some (token, '\n' :: (List.replicate count ' ' ++ next)))).map
          skipLineComment = some after ∧ after.Reaches next count (frame.emit [token]) := by
  obtain ⟨nextIndex, nextLine, nextColumn, moved⟩ :
      ∃ nextIndex nextLine nextColumn,
        (between (passed ++ '\n' :: (List.replicate count ' ' ++ next)) column false frame index
          line).moveTo ('\n' :: (List.replicate count ' ' ++ next)) =
        between ('\n' :: (List.replicate count ' ' ++ next)) nextColumn false frame nextIndex
          nextLine := moveTo_any passed
  refine ⟨between ('\n' :: (List.replicate count ' ' ++ next)) nextColumn false
    (frame.emit [token]) nextIndex nextLine, ?_, reaches_lineEnd begins⟩
  have kept : (between (passed ++ '\n' :: (List.replicate count ' ' ++ next)) column false frame
      index line).saveCandidate? =
        some (between (passed ++ '\n' :: (List.replicate count ' ' ++ next)) column false frame
          index line) := rfl
  rw [keyToken?, kept]
  simp only [Option.bind_eq_bind, Option.bind_some, Option.pure_def, Option.map_some,
    Option.some.injEq]
  refine (congrArg (fun lexer => (emit lexer token).skipLineComment) moved).trans ?_
  rw [emit_between]
  exact skipLineComment_of_ne (by simp [between, isBlank])

theorem begins_of_plainAllowed {char : Char} (allowed : Style.plainAllowed (char :: text) = true) :
    char ∉ plainMarks ∧ isGap char = false ∧
      (char ∈ ['-', '?', ':'] → ∀ tail, gapFollows (text ++ tail) = false) := by
  simp only [Style.plainAllowed, Bool.not_eq_true', Bool.or_eq_false_iff] at allowed
  obtain ⟨⟨⟨⟨⟨⟨begins, -⟩, noBreak⟩, -⟩, noTab⟩, noSpace⟩, -⟩ := allowed
  obtain ⟨noIndicator, noSign⟩ := Style.beginsMarked_cons begins
  have noBreaks : ∀ other ∈ char :: text, isBreak other = false := by simpa using noBreak
  have noTabs : '\t' ∉ char :: text := by simpa using noTab
  have gapless : ∀ other ∈ char :: text, other ≠ ' ' → isGap other = false := by
    intro other member noSpace
    cases gap : isGap other with
    | false => rfl
    | true =>
        refine absurd (Style.eq_space_of_isGap gap (noBreaks other member) ?_) noSpace
        rintro rfl
        exact noTabs member
  refine ⟨?_, gapless char List.mem_cons_self (by simpa [Style.isSpace] using noSpace), ?_⟩
  · have covered : plainMarks.all "#,[]\x7b\x7d&*!|>'\"%@\x60".toList.contains = true := by
      decide
    intro member
    rw [List.all_eq_true.mp covered char member] at noIndicator
    cases noIndicator
  · intro sign tail
    have follows : Style.blankFollows text = false := by
      simp only [List.mem_cons, List.not_mem_nil, or_false] at sign
      rcases sign with rfl | rfl | rfl <;> exact noSign
    cases text with
    | nil => cases follows
    | cons next text =>
        apply gapless next (List.mem_cons_of_mem _ List.mem_cons_self)
        rintro rfl
        cases follows

theorem scalarLine_plain (filled : text ≠ []) (allowed : Style.plainAllowed text = true) :
    ScalarLine limit (text ++ ['\n']) (.scalar true text) := by
  obtain ⟨flows, noComment⟩ := Style.flows_of_plainAllowed allowed
  obtain ⟨first, more, rfl⟩ := List.exists_cons_of_ne_nil filled
  obtain ⟨noMark, noGap, noSign⟩ := begins_of_plainAllowed allowed
  constructor
  · intro next
    exact begins_cons noGap (by simpa using noComment) _
  · intro count column index line next frame outside begins inside indented
    rw [List.append_assoc, List.singleton_append]
    have behind : NextLine frame.indent count next := ⟨by omega, begins.noGap⟩
    have enough : (first :: more).length <
        (first :: more ++ '\n' :: (List.replicate count ' ' ++ next)).length + 1 := by
      rw [List.length_append]
      omega
    obtain ⟨nextIndex, nextLine, moved⟩ : ∃ nextIndex nextLine,
        (between (first :: more ++ '\n' :: (List.replicate count ' ' ++ next)) column true frame
          index line).moveTo next = between next count true frame nextIndex nextLine :=
      moveTo_lines rfl _ _
    refine ⟨between next count true (frame.emit [.scalar true (first :: more)]) nextIndex nextLine,
      ?_, reaches_here begins⟩
    have kept : (between (first :: more ++ '\n' :: (List.replicate count ' ' ++ next)) column false
        frame index line).saveCandidate? =
          some (between (first :: more ++ '\n' :: (List.replicate count ' ' ++ next)) column false
            frame index line) := rfl
    rw [List.cons_append, token?_inside inside,
      contentToken?_plain rfl noGap noMark (fun sign => noSign sign _), ← List.cons_append,
      plainScalar?_eq kept (plain?_flows behind flows noComment filled enough)]
    exact congrArg (fun lexer => some (emit lexer _)) moved |>.trans (by rw [emit_between])

/-- A scalar in quotes, as far as the quotes are read back. -/
theorem scalarLine_quoted {quote : Char} {inner : List Char} (noGap : isGap quote = false)
    (noComment : quote ≠ '#')
    (reads : ∀ (lexer : Lexer) (rest : List Char), rest.head? = some '\n' →
      lexer.contentToken? quote (inner ++ rest) =
        (lexer.keyToken? (some (.scalar false text, rest))).map skipLineComment) :
    ScalarLine limit (quote :: (inner ++ ['\n'])) (.scalar false text) := by
  constructor
  · intro next
    exact begins_cons noGap (by simpa using noComment) _
  · intro count column index line next frame _ begins inside _
    have whole : quote :: (inner ++ ['\n']) ++ (List.replicate count ' ' ++ next) =
        quote :: (inner ++ '\n' :: (List.replicate count ' ' ++ next)) := by
      simp
    rw [whole, token?_inside inside, reads _ _ rfl, ← List.cons_append]
    exact keyToken?_eq begins

theorem scalarLine_single {indent : Nat} (positive : 0 < indent) (folds : Folds text) :
    ScalarLine limit ('\'' :: (singleContent indent false text ++ ['\''] ++ ['\n']))
      (.scalar false text) := by
  apply scalarLine_quoted rfl (by decide)
  intro lexer rest ends
  have noQuote : rest.head? ≠ some '\'' := by
    rw [ends]
    decide
  have enough : text.length < (singleContent indent false text).length + (rest.length + 1) + 1 := by
    have content : text.length ≤ (singleContent indent false text).length :=
      length_le_singleContent false text
    omega
  have read := single?_folds positive noQuote folds enough
  simp [contentToken?, read]

theorem scalarLine_double (marked : Bool) :
    ScalarLine limit ('"' :: (doubleContent marked text ++ ['"'] ++ ['\n']))
      (.scalar false text) := by
  apply scalarLine_quoted rfl (by decide)
  intro lexer rest _
  have enough : text.length < (doubleContent marked text).length + (rest.length + 1) + 1 := by
    have content := length_le_doubleContent marked text
    omega
  have read : double? _ false (doubleContent marked text ++ '"' :: rest) = some (text, rest) :=
    double?_content marked enough
  simp [contentToken?, read]

theorem contentToken?_literal {column index line : Nat} {frame : Frame} (behind : List Char) :
    (between ('|' :: behind) column false frame index line).contentToken? '|' behind =
      (between ('|' :: behind) column false frame index line).blockScalar? false behind := by
  simp [contentToken?, between, inFlow]

theorem blockScalar?_eq {column index line : Nat} {frame : Frame} {behind next : List Char}
    (reads : block? false frame.indent behind = some (text, next)) :
    (between ('|' :: behind) column false frame index line).blockScalar? false behind =
      some (((between ('|' :: behind) column true frame index line).moveTo next).emit
        (.scalar false text)) := by
  have dropped : (between ('|' :: behind) column false frame index line).dropCandidate? =
      some (between ('|' :: behind) column false frame index line) := rfl
  rw [blockScalar?, dropped]
  simp only [Option.bind_eq_bind, Option.bind_some]
  exact congrArg (Option.bind · _) reads

theorem scalarLine_literal {indent : Nat} {content trail : List Char}
    (laid : Laid text content trail) (noTab : text.head? ≠ some '\t')
    (stepped : text.head? = some ' ' → limit + 4 = indent) (inside : limit < indent) :
    ScalarLine limit (endLine (literalBlock indent text)) (.scalar false text) := by
  rw [endLine_literalBlock laid]
  constructor
  · intro next
    exact begins_cons rfl (by decide) _
  · intro count column index line next frame outside begins positive indented
    -- The last break that is kept for the literal is also the one that ends its line.
    obtain ⟨front, final, closed, ends⟩ :
        ∃ front final, closing trail = front ++ [final] ∧ isBreak final = true := by
      have filled := closing_ne_nil trail
      refine ⟨(closing trail).dropLast, (closing trail).getLast filled,
        (List.dropLast_concat_getLast filled).symm, ?_⟩
      exact breaks_closing laid.trail_breaks _ (List.getLast_mem filled)
    have step : text.head? = some ' ' → (max frame.indent 0).toNat + 4 = indent := by
      intro space
      have named := stepped space
      omega
    have read := block?_laid laid noTab step (by omega) (by omega)
      (Nat.lt_of_le_of_lt outside inside) begins.noGap
    have whole : '|' :: (indentMark text ++ (chompOf trail).mark ++ '\n' ::
          (List.replicate indent ' ' ++ (literalLines indent .inside content ++ closing trail))) ++
        (List.replicate count ' ' ++ next) =
        '|' :: (indentMark text ++ (chompOf trail).mark ++ '\n' ::
          (List.replicate indent ' ' ++ (literalLines indent .inside content ++
            (closing trail ++ (List.replicate count ' ' ++ next))))) := by
      simp
    have parts : '|' :: (indentMark text ++ (chompOf trail).mark ++ '\n' ::
          (List.replicate indent ' ' ++ (literalLines indent .inside content ++
            (closing trail ++ (List.replicate count ' ' ++ next))))) =
        '|' :: (indentMark text ++ (chompOf trail).mark ++ '\n' ::
          (List.replicate indent ' ' ++ (literalLines indent .inside content ++ front))) ++
            final :: (List.replicate count ' ' ++ next) := by
      simp [closed]
    obtain ⟨nextIndex, nextLine, moved⟩ : ∃ nextIndex nextLine,
        (between ('|' :: (indentMark text ++ (chompOf trail).mark ++ '\n' ::
          (List.replicate indent ' ' ++ (literalLines indent .inside content ++
            (closing trail ++ (List.replicate count ' ' ++ next)))))) column true frame index
              line).moveTo next = between next count true frame nextIndex nextLine := by
      rw [parts]
      exact moveTo_lines ends _ _
    refine ⟨between next count true (frame.emit [.scalar false text]) nextIndex nextLine, ?_,
      reaches_here begins⟩
    rw [whole, token?_inside positive, contentToken?_literal, blockScalar?_eq read, moved,
      emit_between]

end Scalars

end Lexer

/-! ## Lines -/

/-- From one place where a key may begin the lexer comes to another, in no more steps than
there are characters between. -/
def Reads (text : List Char) (column : Nat) (frame : Frame) (next : List Char) (nextColumn : Nat)
    (nextFrame : Frame) : Prop :=
  ∃ steps, steps + next.length ≤ text.length ∧ ∀ lexer : Lexer, lexer.Reaches text column frame →
    ∃ after : Lexer, after.Reaches next nextColumn nextFrame ∧
      ∀ budget, lexer.run (budget + steps) = after.run budget

section Lines

variable {text next word body : List Char} {column count : Nat} {frame : Frame}

theorem Reads.trans {middle : List Char} {middleColumn nextColumn : Nat}
    {middleFrame nextFrame : Frame}
    (first : Reads text column frame middle middleColumn middleFrame)
    (second : Reads middle middleColumn middleFrame next nextColumn nextFrame) :
    Reads text column frame next nextColumn nextFrame := by
  obtain ⟨firstSteps, firstBound, firstReads⟩ := first
  obtain ⟨secondSteps, secondBound, secondReads⟩ := second
  refine ⟨firstSteps + secondSteps, by omega, fun lexer reaches => ?_⟩
  obtain ⟨between, reachesMiddle, firstRun⟩ := firstReads lexer reaches
  obtain ⟨after, reachesNext, secondRun⟩ := secondReads between reachesMiddle
  refine ⟨after, reachesNext, fun budget => ?_⟩
  rw [Nat.add_comm firstSteps, ← Nat.add_assoc, firstRun, secondRun]

theorem Frame.indent_enter (inside : frame.indent ≤ column) (token : Token) :
    (frame.enter column token).indent = column := by
  unfold enter
  split
  · rfl
  · omega

theorem noComment_of_begins (begins : Lexer.Begins text) :
    ((' ' :: text).dropWhile isBlank).head? ≠ some '#' := by
  have kept : text.dropWhile isBlank = text := by
    cases text with
    | nil => rfl
    | cons char text =>
        obtain ⟨noBlank, -⟩ := isGap_eq_false.mp (begins.noGap char rfl)
        simp [noBlank]
  rw [List.dropWhile_cons_of_pos rfl, kept]
  exact begins.noComment

/-- A scalar behind the colon of its key is one step. -/
theorem Lexer.ScalarLine.run_value {token : Token} (scalar : Lexer.ScalarLine column body token)
    (outside : count ≤ column) (begins : Lexer.Begins next) (goesOn : token ≠ .streamEnd)
    (indented : frame.indent = column) {far : Nat} (inside : column ≤ far) (index line : Nat) :
    ∃ after : Lexer, after.Reaches next count (frame.emit [token]) ∧
      ∀ budget, (Lexer.between (' ' :: (body ++ (List.replicate count ' ' ++ next))) far false frame
        index line).run (budget + 1) = after.run budget := by
  have starts := scalar.begins (List.replicate count ' ' ++ next)
  obtain ⟨after, reads, reaches⟩ : ∃ after, (Lexer.between (body ++ (List.replicate count ' ' ++
      next)) (far + 1) false frame (index + 1) line).token? = some after ∧
        after.Reaches next count (frame.emit [token]) :=
    scalar.reads outside begins (Nat.succ_pos far) indented
  have last : after.tokens.head? ≠ some .streamEnd := by
    rw [reaches.tokens]
    simpa [Frame.emit] using goesOn
  have unrolled : Lexer.unroll (far + 1 : Nat) frame.outer (Lexer.between (body ++
      (List.replicate count ' ' ++ next)) (far + 1) false frame (index + 1) line) = _ :=
    Lexer.unroll_of_le (show frame.indent ≤ _ by omega) _
  exact ⟨after, reaches, Lexer.run_succ (Lexer.skipToToken_spaces starts 1) unrolled reads last⟩

/-- A key with a scalar. -/
theorem Lexer.ScalarLine.reads_entry {token : Token} (scalar : Lexer.ScalarLine column body token)
    (key : Lexer.Key word) (outside : count ≤ column) (begins : Lexer.Begins next)
    (goesOn : token ≠ .streamEnd) (inside : (frame.leave column).indent ≤ column) :
    Reads (word ++ ':' :: ' ' :: (body ++ (List.replicate count ' ' ++ next))) column frame next
      count (((frame.leave column).enter column .mappingStart).emit
        [.key, .scalar true word, .value, token]) := by
  refine ⟨3, ?_, fun lexer reaches => ?_⟩
  · have filled := List.length_pos_iff.mpr key.filled
    simp only [List.length_append, List.length_cons]
    omega
  · have starts := scalar.begins (List.replicate count ' ' ++ next)
    obtain ⟨index, line, ran⟩ := reaches.run_key key rfl (noComment_of_begins starts) inside
    have settled : (((frame.leave column).enter column .mappingStart).emit
        [.key, .scalar true word, .value]).indent = column := Frame.indent_enter inside _
    obtain ⟨after, reachesNext, read⟩ := scalar.run_value outside begins goesOn settled
      (show column ≤ column + word.length + 1 by omega) index line
    refine ⟨after, by simpa [Frame.emit] using reachesNext, fun budget => ?_⟩
    exact (ran (budget + 1)).trans (read budget)

/-- A key with lines below it. -/
theorem Lexer.Key.reads_opening (key : Lexer.Key word) (begins : Lexer.Begins next)
    (inside : (frame.leave column).indent ≤ column) :
    Reads (word ++ ':' :: '\n' :: (List.replicate count ' ' ++ next)) column frame next count
      (((frame.leave column).enter column .mappingStart).emit
        [.key, .scalar true word, .value]) := by
  refine ⟨2, ?_, fun lexer reaches => ?_⟩
  · simp only [List.length_append, List.length_cons]
    omega
  · have noComment : (('\n' :: (List.replicate count ' ' ++ next)).dropWhile isBlank).head? ≠
        some '#' := by
      simp [isBlank]
    obtain ⟨index, line, ran⟩ := reaches.run_key key rfl noComment inside
    exact ⟨_, Lexer.reaches_lineEnd begins, ran⟩

/-- The dash of an item. -/
theorem reads_item (begins : Lexer.Begins next) :
    Reads ('-' :: ' ' :: next) column frame next (column + 2)
      (((frame.leave column).enter column .sequenceStart).emit [.item]) := by
  refine ⟨1, by simp only [List.length_cons]; omega, fun lexer reaches => ?_⟩
  obtain ⟨index, line, skips⟩ := reaches.skips
  exact ⟨_, Lexer.reaches_spaces begins 1, Lexer.run_succ skips (Lexer.unroll_between column)
    Lexer.token?_item (by simp [Lexer.between, Frame.emit])⟩

/-- An empty list of items. -/
theorem Lexer.Key.reads_empty (key : Lexer.Key word) (begins : Lexer.Begins next)
    (inside : (frame.leave column).indent ≤ column) :
    Reads (word ++ ':' :: ' ' :: '[' :: ']' :: '\n' :: (List.replicate count ' ' ++ next)) column
      frame next count (((frame.leave column).enter column .mappingStart).emit
        [.key, .scalar true word, .value, .flowSequenceStart, .flowSequenceEnd]) := by
  refine ⟨4, ?_, fun lexer reaches => ?_⟩
  · simp only [List.length_append, List.length_cons]
    omega
  · obtain ⟨index, line, ran⟩ := reaches.run_key key rfl (by simp [isBlank]) inside
    have indented : (((frame.leave column).enter column .mappingStart).emit
        [.key, .scalar true word, .value]).indent ≤ ((column + word.length + 1 : Nat) : Int) := by
      have same := Frame.indent_enter inside .mappingStart
      exact Int.le_trans (Int.le_of_eq same) (by omega)
    have both : (((frame.leave column).enter column .mappingStart).emit
        [.key, .scalar true word, .value]).emit [.flowSequenceStart, .flowSequenceEnd] =
        ((frame.leave column).enter column .mappingStart).emit
          [.key, .scalar true word, .value, .flowSequenceStart, .flowSequenceEnd] := by
      simp [Frame.emit]
    rw [← both]
    exact ⟨_, Lexer.reaches_lineEnd begins,
      fun budget => (ran (budget + 2)).trans (Lexer.run_brackets indented budget)⟩

/-- The tokens of a stream that is read to its end. -/
theorem Reads.tokens_eq (begins : Lexer.Begins text) (reads : Reads text 0 {} [] 0 frame) :
    tokens text = ((frame.leave 0).leave (-1)).read ++ [.streamEnd] := by
  obtain ⟨steps, bound, runs⟩ := reads
  obtain ⟨after, reaches, ran⟩ :=
    runs (Lexer.between text 0 true {} 0 0) (Lexer.reaches_here begins)
  -- The lexer has more steps than characters, and the lines need no more than that.
  obtain ⟨less, enough⟩ : ∃ less, 2 * text.length + 2 = less + 1 + steps :=
    ⟨2 * text.length + 1 - steps, by simp only [List.length_nil] at bound; omega⟩
  obtain ⟨index, line, skips⟩ := reaches.skips
  have start : tokens text = (Lexer.between text 0 true {} 0 0).run (less + 1 + steps) := by
    rw [← enough]
    rfl
  have unrolled : Lexer.unroll (0 : Nat) frame.outer (Lexer.between [] 0 true frame index line) =
      Lexer.between [] 0 true (frame.leave 0) index line := Lexer.unroll_between 0
  rw [start, ran,
    Lexer.run_last skips unrolled Lexer.token?_end (by simp [Lexer.between, Frame.emit])]
  simp [Lexer.between, Frame.emit]

end Lines

end Stencil.Yaml
