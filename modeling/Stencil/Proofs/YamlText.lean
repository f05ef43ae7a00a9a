import Stencil.Proofs.Hex
import Stencil.Yaml.Block
import Stencil.Yaml.Style

/-!
# YAML scalars are read back

What a style writes, its reader reads back in front of anything that may follow.
Plain and quoted scalars are cut at their blanks, so each of these is followed
character by character: either a stretch goes on, or a gap does.
-/

namespace Stencil.Yaml

/-- The next character is no blank and no line break. -/
def NoGap (text : List Char) : Prop :=
  ∀ char ∈ text.head?, isGap char = false

theorem isGap_eq_false {char : Char} :
    isGap char = false ↔ isBlank char = false ∧ isBreak char = false := by
  rw [isGap, Bool.or_eq_false_iff]

/-- One more character in front of what was read. -/
def withFirst {α : Type} (char : Char) (read : Option (List Char × α)) : Option (List Char × α) :=
  read.map fun (content, tail) => (char :: content, tail)

namespace Gap

variable {indent : Int} {gap : Gap} {column : Nat}

theorem read?_stop {text : List Char} (stops : NoGap text) :
    read? indent gap column text = some (gap, column, text) := by
  cases text with
  | nil => rfl
  | cons char text =>
      obtain ⟨noBlank, noBreak⟩ := isGap_eq_false.mp (stops char rfl)
      rw [read?, noBreak, noBlank]
      rfl

theorem read?_break {char : Char} (ends : isBreak char = true) (text : List Char) :
    read? indent gap column (char :: text) =
      read? indent { gap with breaks := gap.breaks ++ [char] } 0 text := by
  rw [read?, ends]
  rfl

theorem read?_space (whole : gap.isBroken = false) (text : List Char) :
    read? indent gap column (' ' :: text) =
      read? indent { gap with blanks := gap.blanks ++ [' '] } (column + 1) text := by
  rw [read?, whole]
  rfl

/-- Spaces at the start of a line do not count. -/
theorem read?_spaces (broken : gap.isBroken = true) {text : List Char} (stops : NoGap text)
    (count : Nat) :
    read? indent gap column (List.replicate count ' ' ++ text) =
      some (gap, column + count, text) := by
  induction count generalizing column with
  | zero => exact read?_stop stops
  | succ count ih =>
      rw [List.replicate_succ, List.cons_append, read?, broken]
      exact (ih.trans (by rw [Nat.add_right_comm, Nat.add_assoc]))

end Gap

/-! ## Plain scalars -/

/-- A text that one plain scalar can hold on one line: a colon ends no word, and
between words there are spaces without a number sign behind. -/
def Flows : List Char → Prop
  | [] => True
  | char :: text =>
      (char = ':' → Style.blankFollows text = false) ∧
        (isGap char = true → char = ' ' ∧ text ≠ [] ∧ text.head? ≠ some '#') ∧ Flows text

section Plain

variable {indent : Int} {budget : Nat}

/-- What is made of a stretch and the gap behind it. -/
def plainAfter (indent : Int) (budget : Nat) (stretch : List Char) (gap : Gap) (column : Nat)
    (rest : List Char) : Option (List Char × Bool × List Char) :=
  if gap.isBroken && (column : Int) < indent then some (stretch, true, rest)
  else
    match plain? false indent budget (column == 0) rest with
    | none => none
    | some ([], _, rest) => some (stretch, gap.isBroken, rest)
    | some (content, broken, rest) => some (stretch ++ gap.fold ++ content, broken, rest)

/-- A plain scalar from within a stretch on. -/
def plainBody (indent : Int) (budget : Nat) (text : List Char) :
    Option (List Char × Bool × List Char) :=
  let (stretch, rest) := plainStretch false text
  if rest.head?.any isGap then
    match Gap.read? indent {} 1 rest with
    | none => none
    | some (gap, column, rest) => plainAfter indent budget stretch gap column rest
  else some (stretch, false, rest)

theorem plain?_succ {text : List Char} (noComment : text.head? ≠ some '#') :
    plain? false indent (budget + 1) false text = plainBody indent budget text := by
  have begins : (text.head? == some '#') = false := by simpa using noComment
  rw [plain?, begins, Bool.or_false, Bool.false_and, if_neg Bool.false_ne_true]
  unfold plainBody
  dsimp only
  split
  · cases Gap.read? indent {} 1 (plainStretch false text).2 with
    | none => rfl
    | some found =>
        obtain ⟨gap, column, rest⟩ := found
        dsimp only [plainAfter]
        cases gap.isBroken
        · rfl
        · rfl
  · rfl

theorem plainAfter_cons (char : Char) (stretch : List Char) (gap : Gap) (column : Nat)
    (rest : List Char) :
    plainAfter indent budget (char :: stretch) gap column rest =
      withFirst char (plainAfter indent budget stretch gap column rest) := by
  unfold plainAfter
  split
  · rfl
  · split <;> rfl

theorem plainBody_cons {char : Char} {text : List Char} (noGap : isGap char = false)
    (noColon : (char == ':' && gapFollows text) = false) :
    plainBody indent budget (char :: text) = withFirst char (plainBody indent budget text) := by
  have stretch : plainStretch false (char :: text) =
      (char :: (plainStretch false text).1, (plainStretch false text).2) := by
    rw [plainStretch, noGap, noColon]
    rfl
  unfold plainBody
  rw [stretch]
  dsimp only
  split
  · split
    · rfl
    · exact plainAfter_cons _ _ _ _ _
  · rfl

/-- The next line has at most the indentation around. -/
structure NextLine (outer : Int) (count : Nat) (next : List Char) : Prop where
  outside : (count : Int) ≤ outer
  noGap : NoGap next

theorem Flows.noColon {char : Char} {text : List Char} (flows : Flows (char :: text))
    (tail : List Char) : (char == ':' && gapFollows (text ++ tail)) = false := by
  obtain ⟨colon, -, later⟩ := flows
  cases isColon : char == ':' with
  | false => rfl
  | true =>
      have noBlank := colon (by simpa using isColon)
      cases text with
      | nil => cases noBlank
      | cons next text =>
          cases gap : isGap next with
          | false => simpa [gapFollows] using gap
          | true =>
              obtain ⟨rfl, -⟩ := later.2.1 gap
              cases noBlank

/-- What is made of a gap and the text behind it. -/
def plainGap (indent : Int) (budget : Nat) (gap : Gap) (column : Nat) (text : List Char) :
    Option (List Char × Bool × List Char) :=
  match Gap.read? indent gap column text with
  | none => none
  | some (gap, column, rest) => plainAfter indent budget [] gap column rest

theorem plainBody_gap {char : Char} (gap : isGap char = true) (text : List Char) :
    plainBody indent budget (char :: text) = plainGap indent budget {} 1 (char :: text) := by
  have stretch : plainStretch false (char :: text) = ([], char :: text) := by
    rw [plainStretch, gap]
    rfl
  unfold plainBody
  rw [stretch]
  simp only [List.head?_cons, Option.any_some, gap, if_true]
  rfl

/-- A word behind a gap. -/
theorem plainGap_stop {char : Char} {text content rest : List Char} (noGap : isGap char = false)
    (noComment : char ≠ '#') {column : Nat} (inside : 0 < column) (blanks : List Char)
    (goesOn : plainBody indent budget (char :: text) = some (char :: content, true, rest)) :
    plainGap indent (budget + 1) { blanks } column (char :: text) =
      some (blanks ++ char :: content, true, rest) := by
  have stops : NoGap (char :: text) := by
    rintro _ ⟨⟩
    exact noGap
  have notFirst : (column == 0) = false := by
    simpa using Nat.ne_of_gt inside
  have whole : Gap.isBroken { blanks } = false := rfl
  rw [plainGap, Gap.read?_stop stops]
  dsimp only
  rw [plainAfter, whole, Bool.false_and, if_neg Bool.false_ne_true, notFirst,
    plain?_succ (by simpa using noComment), goesOn]
  rfl

section Flows

variable {outer : Int} {count : Nat} {next : List Char} (behind : NextLine outer count next)
include behind

theorem plainBody_nil :
    plainBody (outer + 1) budget ('\n' :: (List.replicate count ' ' ++ next)) =
      some ([], true, next) := by
  have indented : (count : Int) < outer + 1 := Int.lt_add_one_of_le behind.outside
  rw [plainBody_gap rfl, plainGap, Gap.read?_break rfl, Gap.read?_spaces rfl behind.noGap,
    Nat.zero_add]
  simp [plainAfter, Gap.isBroken, indented]

/-- A plain scalar is read back from within a stretch or a gap on. -/
theorem plain_flows {text : List Char} (flows : Flows text) :
    (∀ budget, text.length ≤ budget →
      plainBody (outer + 1) budget (text ++ '\n' :: (List.replicate count ' ' ++ next)) =
        some (text, true, next)) ∧
    (∀ budget blanks column, text.length < budget → 0 < column → text ≠ [] →
      text.head? ≠ some '#' →
      plainGap (outer + 1) budget { blanks } column
          (text ++ '\n' :: (List.replicate count ' ' ++ next)) =
        some (blanks ++ text, true, next)) := by
  induction text with
  | nil =>
      refine ⟨fun budget _ => plainBody_nil behind, ?_⟩
      intro budget blanks column _ _ filled
      exact absurd rfl filled
  | cons char text ih =>
      have noColon := flows.noColon
      obtain ⟨-, gapped, later⟩ := flows
      obtain ⟨stretches, gaps⟩ := ih later
      cases gap : isGap char with
      | true =>
          -- The reader takes up the whole gap before it learns what follows, so both halves go on
          -- in the second one.
          obtain ⟨rfl, filled, noComment⟩ := gapped gap
          constructor
          · intro budget enough
            rw [List.cons_append, plainBody_gap rfl, plainGap, Gap.read?_space rfl]
            exact gaps budget [' '] 2 enough (by omega) filled noComment
          · intro budget blanks column enough inside _ _
            rw [List.cons_append, plainGap, Gap.read?_space rfl]
            have more := gaps budget (blanks ++ [' ']) (column + 1)
              (Nat.lt_of_succ_lt enough) (Nat.succ_pos column) filled noComment
            rw [List.append_assoc] at more
            exact more
      | false =>
          have stretch : ∀ budget, (char :: text).length ≤ budget →
              plainBody (outer + 1) budget
                  (char :: text ++ '\n' :: (List.replicate count ' ' ++ next)) =
                some (char :: text, true, next) := by
            intro budget enough
            rw [List.cons_append, plainBody_cons gap (noColon _),
              stretches budget (Nat.le_of_succ_le enough)]
            rfl
          refine ⟨stretch, ?_⟩
          intro budget blanks column enough inside _ noComment
          obtain ⟨less, rfl⟩ : ∃ less, budget = less + 1 := Nat.exists_eq_add_one.mpr (by omega)
          exact plainGap_stop gap (by simpa using noComment) inside blanks
            (stretch less (Nat.le_of_lt_succ enough))

theorem plain?_flows {text : List Char} (flows : Flows text) (noComment : text.head? ≠ some '#')
    (filled : text ≠ []) {budget : Nat} (enough : text.length < budget) :
    plain? false (outer + 1) budget false
        (text ++ '\n' :: (List.replicate count ' ' ++ next)) =
      some (text, true, next) := by
  obtain ⟨char, tail, rfl⟩ := List.exists_cons_of_ne_nil filled
  obtain ⟨less, rfl⟩ : ∃ less, budget = less + 1 := Nat.exists_eq_add_one.mpr (by omega)
  rw [plain?_succ (by simpa using noComment)]
  exact (plain_flows behind flows).1 less (Nat.le_of_lt_succ enough)

end Flows

namespace Style

theorem beginsMarked_cons {char : Char} {text : List Char}
    (unmarked : beginsMarked (char :: text) = false) :
    "#,[]\x7b\x7d&*!|>'\"%@\x60".toList.contains char = false ∧
      ((char == '?' || char == ':' || char == '-') && blankFollows text) = false := by
  unfold beginsMarked at unmarked
  split at unmarked
  · cases unmarked
  · cases unmarked
  · next same => cases same
  · next same =>
      cases same
      exact Bool.or_eq_false_iff.mp unmarked

theorem eq_space_of_isGap {char : Char} (gap : isGap char = true) (noBreak : isBreak char = false)
    (noTab : char ≠ '\t') : char = ' ' := by
  simpa [isGap, isBlank, noBreak, noTab] using gap

theorem flows_of_holdsMark {char : Char} {text : List Char}
    (colon : (char == ':' && blankFollows text) = false)
    (unmarked : holdsMark (char :: text) = false)
    (noBreak : ∀ other ∈ char :: text, isBreak other = false)
    (noTab : ∀ other ∈ char :: text, other ≠ '\t')
    (last : (char :: text).getLast?.any isSpace = false) : Flows (char :: text) := by
  have goesOn : char = ':' → blankFollows text = false := by
    rintro rfl
    exact colon
  obtain ⟨firstNoBreak, laterNoBreak⟩ := List.forall_mem_cons.mp noBreak
  obtain ⟨firstNoTab, laterNoTab⟩ := List.forall_mem_cons.mp noTab
  cases text with
  | nil =>
      refine ⟨goesOn, fun gap => ?_, trivial⟩
      obtain rfl := eq_space_of_isGap gap firstNoBreak firstNoTab
      cases last
  | cons next text =>
      rw [holdsMark, Bool.or_eq_false_iff, Bool.or_eq_false_iff] at unmarked
      obtain ⟨⟨nextColon, nextComment⟩, later⟩ := unmarked
      refine ⟨goesOn, fun gap => ?_,
        flows_of_holdsMark nextColon later laterNoBreak laterNoTab (by simpa using last)⟩
      refine ⟨eq_space_of_isGap gap firstNoBreak firstNoTab, List.cons_ne_nil _ _, ?_⟩
      simpa [gap] using nextComment

theorem flows_of_plainAllowed {text : List Char} (allowed : plainAllowed text = true) :
    Flows text ∧ text.head? ≠ some '#' := by
  simp only [plainAllowed, Bool.not_eq_true', Bool.or_eq_false_iff] at allowed
  obtain ⟨⟨⟨⟨⟨⟨begins, unmarked⟩, noBreak⟩, -⟩, noTab⟩, -⟩, last⟩ := allowed
  cases text with
  | nil => exact ⟨trivial, by simp⟩
  | cons char text =>
      obtain ⟨noIndicator, noMark⟩ := beginsMarked_cons begins
      have colon : (char == ':' && blankFollows text) = false := by
        cases isColon : char == ':' with
        | false => rfl
        | true => simpa [isColon] using noMark
      refine ⟨flows_of_holdsMark colon unmarked ?_ ?_ last, ?_⟩
      · simpa using noBreak
      · rintro other member rfl
        rw [List.contains_iff_mem.mpr member] at noTab
        cases noTab
      · rintro ⟨⟩
        cases noIndicator

end Style

end Plain

/-! ## Single quotes -/

/-- A text whose gaps are spaces or line separators, but no mixture of both. -/
def Folds : List Char → Prop
  | [] => True
  | char :: text =>
      (isGap char = true →
        (char = ' ' ∧ ∀ next ∈ text.head?, isBreak next = false) ∨
          (isBreak char = true ∧ char ≠ '\n' ∧ text.head? ≠ some ' ')) ∧ Folds text

section Single

variable {indent budget : Nat} {rest : List Char}

/-- A character in single quotes. -/
def singleUnit (char : Char) : List Char :=
  if char == '\'' then ['\'', '\''] else [char]

theorem noGap_singleUnit {char : Char} (noGap : isGap char = false) (text : List Char) :
    NoGap (singleUnit char ++ text) := by
  unfold singleUnit
  split
  · rintro _ ⟨⟩
    rfl
  · rintro _ ⟨⟩
    exact noGap

theorem singleStretch_unit {char : Char} (noGap : isGap char = false) (text : List Char) :
    singleStretch (singleUnit char ++ text) =
      (char :: (singleStretch text).1, (singleStretch text).2) := by
  unfold singleUnit
  split
  · next quote =>
      obtain rfl : char = '\'' := by simpa using quote
      rw [List.cons_append, List.cons_append, List.nil_append, singleStretch]
  · next noQuote =>
      rw [List.cons_append, List.nil_append, singleStretch]
      · simp [noGap, noQuote]
      · rintro _ rfl
        exact absurd rfl noQuote

/-- What is made of a stretch and what follows it. -/
def singleBody (budget : Nat) (stretch rest : List Char) : Option (List Char × List Char) :=
  match rest with
  | [] => none
  | '\'' :: rest => some (stretch, rest)
  | rest => do
      let (gap, column, rest) ← Gap.read? 0 {} 1 rest
      let (content, rest) ← single? budget (column == 0) rest
      return (stretch ++ gap.fold ++ content, rest)

theorem single?_succ {atLineStart : Bool} {text : List Char}
    (noMark : (atLineStart && isDocumentMark text) = false) :
    single? (budget + 1) atLineStart text =
      singleBody budget (singleStretch text).1 (singleStretch text).2 := by
  rw [single?, noMark, if_neg Bool.false_ne_true]
  rfl

theorem singleBody_cons (char : Char) (stretch text : List Char) :
    singleBody budget (char :: stretch) text = withFirst char (singleBody budget stretch text) := by
  unfold singleBody
  split
  · rfl
  · rfl
  · cases Gap.read? 0 {} 1 text with
    | none => rfl
    | some found =>
        obtain ⟨gap, column, behind⟩ := found
        simp only [Option.bind_eq_bind, Option.bind_some]
        cases single? budget (column == 0) behind with
        | none => rfl
        | some read => rfl

theorem single?_unit {char : Char} (noGap : isGap char = false) (text : List Char) :
    single? (budget + 1) false (singleUnit char ++ text) =
      withFirst char (single? (budget + 1) false text) := by
  rw [single?_succ rfl, single?_succ rfl, singleStretch_unit noGap, singleBody_cons]

/-- The closing quote. -/
theorem single?_end (atLineStart : Bool) (noQuote : rest.head? ≠ some '\'') :
    single? (budget + 1) atLineStart ('\'' :: rest) = some ([], rest) := by
  have noMark : (atLineStart && isDocumentMark ('\'' :: rest)) = false := Bool.and_false _
  have stretch : singleStretch ('\'' :: rest) = ([], '\'' :: rest) := by
    rw [singleStretch]
    · rfl
    · rintro text _ rfl
      exact noQuote rfl
  rw [single?_succ noMark, stretch]
  rfl

/-- What is made of a gap and the text behind it. -/
def singleGap (budget : Nat) (gap : Gap) (column : Nat) (text : List Char) :
    Option (List Char × List Char) := do
  let (gap, column, rest) ← Gap.read? 0 gap column text
  let (content, rest) ← single? budget (column == 0) rest
  return (gap.fold ++ content, rest)

theorem single?_gap {char : Char} (gap : isGap char = true) (text : List Char) :
    single? (budget + 1) false (char :: text) = singleGap budget {} 1 (char :: text) := by
  have noQuote : char ≠ '\'' := by
    rintro rfl
    cases gap
  have stretch : singleStretch (char :: text) = ([], char :: text) := by
    rw [singleStretch]
    · simp [gap]
    · intro _ same
      exact absurd same noQuote
  rw [single?_succ rfl, stretch]
  unfold singleBody
  split
  · next same => cases same
  · next same => exact absurd (List.cons.inj same).1 noQuote
  · rfl

theorem singleGap_stop {gap : Gap} {column : Nat} {text content behind : List Char}
    (stops : NoGap text) (reads : single? budget (column == 0) text = some (content, behind)) :
    singleGap budget gap column text = some (gap.fold ++ content, behind) := by
  rw [singleGap, Gap.read?_stop stops]
  simp [reads]

theorem singleContent_break {char : Char} (ends : isBreak char = true) (lineStart : Bool)
    (text : List Char) :
    singleContent indent lineStart (char :: text) = char :: singleContent indent true text := by
  rw [singleContent, ends, if_pos rfl]

theorem singleContent_unit {char : Char} (noBreak : isBreak char = false) (text : List Char) :
    singleContent indent false (char :: text) =
      singleUnit char ++ singleContent indent false text := by
  rw [singleContent, noBreak, if_neg Bool.false_ne_true]
  rfl

theorem singleContent_lineStart {char : Char} (noBreak : isBreak char = false)
    (text : List Char) :
    singleContent indent true (char :: text) =
      List.replicate indent ' ' ++ singleContent indent false (char :: text) := by
  rw [singleContent_unit noBreak, singleContent, noBreak, if_neg Bool.false_ne_true, if_pos rfl,
    List.append_assoc]
  rfl

theorem length_le_singleContent (lineStart : Bool) (text : List Char) :
    text.length ≤ (singleContent indent lineStart text).length := by
  induction text generalizing lineStart with
  | nil => exact Nat.zero_le _
  | cons char text ih =>
      rw [singleContent]
      split
      · exact Nat.succ_le_succ (ih true)
      · have later := ih false
        have unit : 1 ≤ (if char == '\'' then ['\'', '\''] else [char]).length := by
          split <;> simp
        rw [List.length_append, List.length_append, List.length_cons]
        omega

theorem fold_breaks {blanks : List Char} {char : Char} (other : char ≠ '\n') (breaks : List Char) :
    Gap.fold { blanks, breaks := char :: breaks } = char :: breaks := by
  unfold Gap.fold
  simp [other]

/-- A text in single quotes is read back from within a stretch, from within spaces, and
from the start of a line on. -/
structure SingleReads (indent : Nat) (rest text : List Char) : Prop where
  stretch : ∀ budget, text.length < budget →
    single? budget false (singleContent indent false text ++ '\'' :: rest) = some (text, rest)
  spaces : ∀ budget blanks column, text.length < budget → 0 < column →
    (∀ next ∈ text.head?, isBreak next = false) →
    singleGap budget { blanks } column (singleContent indent false text ++ '\'' :: rest) =
      some (blanks ++ text, rest)
  lines : ∀ budget blanks char breaks, text.length < budget → char ≠ '\n' →
    text.head? ≠ some ' ' →
    singleGap budget { blanks, breaks := char :: breaks } 0
        (singleContent indent true text ++ '\'' :: rest) =
      some (char :: breaks ++ text, rest)

theorem singleReads_nil (noQuote : rest.head? ≠ some '\'') : SingleReads indent rest [] := by
  have ends : ∀ budget atLineStart, 0 < budget →
      single? budget atLineStart ('\'' :: rest) = some ([], rest) := by
    intro budget atLineStart positive
    obtain ⟨less, rfl⟩ := Nat.exists_eq_add_one.mpr positive
    exact single?_end atLineStart noQuote
  have stops : NoGap ('\'' :: rest) := by
    rintro _ ⟨⟩
    rfl
  constructor
  · intro budget enough
    exact ends budget false enough
  · intro budget blanks column enough _ _
    exact singleGap_stop stops (ends budget _ enough)
  · intro budget blanks char breaks enough other _
    have read : singleGap budget { blanks, breaks := char :: breaks } 0 ('\'' :: rest) = _ :=
      singleGap_stop stops (ends budget _ enough)
    rwa [fold_breaks other] at read

section Reads

variable {char : Char} {text : List Char}

theorem SingleReads.unit (reads : SingleReads indent rest text) (inside : 0 < indent)
    (noGap : isGap char = false) : SingleReads indent rest (char :: text) := by
  obtain ⟨-, noBreak⟩ := isGap_eq_false.mp noGap
  have stretch : ∀ budget, (char :: text).length < budget →
      single? budget false (singleContent indent false (char :: text) ++ '\'' :: rest) =
        some (char :: text, rest) := by
    intro budget enough
    obtain ⟨less, rfl⟩ : ∃ less, budget = less + 1 := Nat.exists_eq_add_one.mpr (by omega)
    rw [singleContent_unit noBreak, List.append_assoc, single?_unit noGap,
      reads.stretch _ (Nat.lt_of_succ_lt enough)]
    rfl
  have stops : NoGap (singleContent indent false (char :: text) ++ '\'' :: rest) := by
    rw [singleContent_unit noBreak, List.append_assoc]
    exact noGap_singleUnit noGap _
  -- A character that is no gap ends the gap before it, which is folded there.
  refine ⟨stretch, ?_, ?_⟩
  · intro budget blanks column enough inside _
    have notFirst : (column == 0) = false := by
      simpa using Nat.ne_of_gt inside
    apply singleGap_stop stops
    rw [notFirst]
    exact stretch budget enough
  · intro budget blanks first breaks enough other _
    have notFirst : (indent == 0) = false := by
      simpa using Nat.ne_of_gt inside
    rw [singleContent_lineStart noBreak, List.append_assoc, singleGap, Gap.read?_spaces rfl stops]
    simp [notFirst, stretch budget enough, fold_breaks other]

theorem SingleReads.space (reads : SingleReads indent rest text)
    (noBreak : ∀ next ∈ text.head?, isBreak next = false) :
    SingleReads indent rest (' ' :: text) := by
  constructor
  · intro budget enough
    obtain ⟨less, rfl⟩ : ∃ less, budget = less + 1 := Nat.exists_eq_add_one.mpr (by omega)
    rw [singleContent_unit rfl]
    exact (single?_gap rfl _).trans (by
      rw [singleGap, Gap.read?_space rfl]
      exact reads.spaces less [' '] 2 (Nat.lt_of_succ_lt_succ enough) (by omega) noBreak)
  · intro budget blanks column enough inside _
    have more := reads.spaces budget (blanks ++ [' ']) (column + 1) (Nat.lt_of_succ_lt enough)
      (Nat.succ_pos column) noBreak
    rw [List.append_assoc] at more
    rw [singleContent_unit rfl]
    exact Eq.trans (by
      rw [singleGap]
      exact congrArg (Option.bind · _) (Gap.read?_space rfl _)) more
  · intro budget blanks first breaks _ _ noSpace
    exact absurd rfl noSpace

theorem SingleReads.lineBreak (reads : SingleReads indent rest text) (ends : isBreak char = true)
    (other : char ≠ '\n') (noSpace : text.head? ≠ some ' ') :
    SingleReads indent rest (char :: text) := by
  have gap : isGap char = true := by
    rw [isGap, ends, Bool.or_true]
  constructor
  · intro budget enough
    obtain ⟨less, rfl⟩ : ∃ less, budget = less + 1 := Nat.exists_eq_add_one.mpr (by omega)
    rw [singleContent_break ends, List.cons_append, single?_gap gap, singleGap,
      Gap.read?_break ends]
    exact reads.lines less [] char [] (Nat.lt_of_succ_lt_succ enough) other noSpace
  · intro budget blanks column _ _ noBreak
    rw [noBreak char rfl] at ends
    cases ends
  · intro budget blanks first breaks enough firstOther _
    rw [singleContent_break ends, List.cons_append, singleGap, Gap.read?_break ends]
    have more := reads.lines budget blanks first (breaks ++ [char]) (Nat.lt_of_succ_lt enough)
      firstOther noSpace
    rw [← List.cons_append, List.append_assoc] at more
    exact more

end Reads

theorem single?_folds (inside : 0 < indent) (noQuote : rest.head? ≠ some '\'') {text : List Char}
    (folds : Folds text) (enough : text.length < budget) :
    single? budget false (singleContent indent false text ++ '\'' :: rest) = some (text, rest) := by
  have reads : SingleReads indent rest text := by
    clear enough
    induction text with
    | nil => exact singleReads_nil noQuote
    | cons char text ih =>
        obtain ⟨gapped, later⟩ := folds
        cases gap : isGap char with
        | false => exact (ih later).unit inside gap
        | true =>
            rcases gapped gap with ⟨rfl, noBreak⟩ | ⟨ends, other, noSpace⟩
            · exact (ih later).space noBreak
            · exact (ih later).lineBreak ends other noSpace
  exact reads.stretch budget enough

end Single

namespace Style

theorem folds_of_adjacent {text : List Char} (breakSpace : adjacent isBreak isSpace text = false)
    (spaceBreak : adjacent isSpace isBreak text = false) (noTab : '\t' ∉ text)
    (oneLine : '\n' ∉ text) : Folds text := by
  induction text with
  | nil => trivial
  | cons char text ih =>
      have laterNoTab := List.not_mem_of_not_mem_cons noTab
      have laterOneLine := List.not_mem_of_not_mem_cons oneLine
      have later : adjacent isBreak isSpace text = false ∧ adjacent isSpace isBreak text = false ∧
          (∀ next ∈ text.head?, (isBreak char && isSpace next) = false ∧
            (isSpace char && isBreak next) = false) := by
        cases text with
        | nil => exact ⟨rfl, rfl, by rintro _ ⟨⟩⟩
        | cons next text =>
            rw [adjacent, Bool.or_eq_false_iff] at breakSpace spaceBreak
            refine ⟨breakSpace.2, spaceBreak.2, ?_⟩
            rintro _ ⟨⟩
            exact ⟨breakSpace.1, spaceBreak.1⟩
      obtain ⟨laterBreakSpace, laterSpaceBreak, follows⟩ := later
      refine ⟨fun gap => ?_, ih laterBreakSpace laterSpaceBreak laterNoTab laterOneLine⟩
      cases ends : isBreak char with
      | true =>
          refine .inr ⟨rfl, (List.ne_of_not_mem_cons oneLine).symm, fun space => ?_⟩
          have apart := (follows ' ' space).1
          rw [ends] at apart
          cases apart
      | false =>
          obtain rfl := eq_space_of_isGap gap ends (List.ne_of_not_mem_cons noTab).symm
          exact .inl ⟨rfl, fun next first => (follows next first).2⟩

theorem folds_of_singleAllowed {text : List Char} (allowed : singleAllowed text = true)
    (oneLine : '\n' ∉ text) : Folds text := by
  simp only [singleAllowed, Bool.not_eq_true', Bool.or_eq_false_iff] at allowed
  obtain ⟨⟨⟨breakSpace, spaceBreak⟩, noTab⟩, -⟩ := allowed
  apply folds_of_adjacent breakSpace spaceBreak _ oneLine
  simpa using noTab

end Style

/-! ## Double quotes -/

section Escapes

theorem value?_upperDigit {n : Nat} (small : n < 16) :
    Hex.value? (Char.ofNat (Hex.upperDigit n).toNat) = some n := by
  revert n
  decide

theorem hexDigits_succ (width n : Nat) :
    hexDigits (width + 1) n =
      Char.ofNat (Hex.upperDigit (n / 16 ^ width % 16)).toNat :: hexDigits width n := by
  rw [hexDigits, Hex.digits_succ]
  rfl

theorem number?_hexDigits (width n : Nat) :
    Hex.number? (hexDigits width n) = some (n % 16 ^ width) := by
  have reads (start : Nat) :
      (hexDigits width n).foldlM (fun n char => (Hex.value? char).map (n * 16 + ·)) start =
        some (start * 16 ^ width + n % 16 ^ width) := by
    induction width generalizing start with
    | zero => simp [hexDigits, Hex.digits, Nat.mod_one]
    | succ width ih =>
        rw [hexDigits_succ, List.foldlM_cons, value?_upperDigit (Nat.mod_lt _ (by decide))]
        refine (ih _).trans ?_
        rw [Nat.mod_pow_succ, Nat.pow_succ, Nat.add_mul, Nat.mul_assoc, Nat.mul_comm 16,
          Nat.mul_comm (16 ^ width) (n / 16 ^ width % 16)]
        congr 1
        omega
  rw [Hex.number?, reads, Nat.zero_mul, Nat.zero_add]

theorem coded?_hexDigits {char : Char} {width : Nat} (fits : char.toNat < 16 ^ width) :
    coded? (hexDigits width char.toNat) = some char := by
  rw [coded?, number?_hexDigits, Nat.mod_eq_of_lt fits]
  have valid : char.toNat.isValidChar := char.valid
  simp [valid]

theorem escapeLetter?_escapeOf? {char letter : Char} (short : escapeOf? char = some letter) :
    escapeLetter? letter = some char ∧ isBreak letter = false ∧
      letter ≠ 'x' ∧ letter ≠ 'u' ∧ letter ≠ 'U' := by
  have itself := Char.ofNat_toNat char
  unfold escapeOf? at short
  split at short
  all_goals cases short
  all_goals
    next same =>
      rw [same] at itself
      subst itself
      decide

theorem doubleStretch?_escaped (char : Char) (text : List Char) :
    doubleStretch? (escaped char ++ text) =
      doubleStretch?.cons? (some char) (doubleStretch? text) := by
  unfold escaped
  dsimp only
  split
  · next letter short =>
      obtain ⟨reads, noBreak, notX, notU, notWide⟩ := escapeLetter?_escapeOf? short
      rw [List.cons_append, List.cons_append, List.nil_append, doubleStretch?]
      · simp [noBreak, reads]
      all_goals simp_all
  · split
    · next narrow =>
        have code : coded? (hexDigits 2 char.toNat) = some char :=
          coded?_hexDigits (Nat.lt_of_le_of_lt narrow (by decide))
        obtain ⟨a, b, written⟩ : ∃ a b, hexDigits 2 char.toNat = [a, b] := ⟨_, _, rfl⟩
        rw [written] at code ⊢
        simp [doubleStretch?, code]
    · split
      · next inPlane =>
          have code : coded? (hexDigits 4 char.toNat) = some char :=
            coded?_hexDigits (Nat.lt_of_le_of_lt inPlane (by decide))
          obtain ⟨a, b, c, d, written⟩ : ∃ a b c d, hexDigits 4 char.toNat = [a, b, c, d] :=
            ⟨_, _, _, _, rfl⟩
          rw [written] at code ⊢
          simp [doubleStretch?, code]
      · have code : coded? (hexDigits 8 char.toNat) = some char :=
          coded?_hexDigits (Nat.lt_of_lt_of_le char.val.toNat_lt (by decide))
        obtain ⟨a, b, c, d, e, f, g, h, written⟩ :
            ∃ a b c d e f g h, hexDigits 8 char.toNat = [a, b, c, d, e, f, g, h] :=
          ⟨_, _, _, _, _, _, _, _, rfl⟩
        rw [written] at code ⊢
        simp [doubleStretch?, code]

end Escapes

section Double

variable {budget : Nat} {rest : List Char}

/-- A character in double quotes. -/
def doubleUnit (marked : Bool) (char : Char) : List Char :=
  if marked || !Style.isPlainChar char || isBreak char || char == '"' || char == '\\' then
    escaped char
  else [char]

/-- The content of double quotes. -/
def doubleContent (marked : Bool) (text : List Char) : List Char :=
  text.flatMap (doubleUnit marked)

theorem doubleQuoted_eq (text : List Char) :
    doubleQuoted text =
      '"' :: doubleContent (text.head? == some '\ufeff') text ++ ['"'] :=
  rfl

theorem doubleContent_cons (marked : Bool) (char : Char) (text : List Char) :
    doubleContent marked (char :: text) = doubleUnit marked char ++ doubleContent marked text :=
  List.flatMap_cons

theorem escaped_eq_cons (char : Char) : ∃ text, escaped char = '\\' :: text := by
  unfold escaped
  dsimp only
  split
  · exact ⟨_, rfl⟩
  · split
    · exact ⟨_, rfl⟩
    · split <;> exact ⟨_, rfl⟩

theorem length_le_doubleContent (marked : Bool) (text : List Char) :
    text.length ≤ (doubleContent marked text).length := by
  induction text with
  | nil => exact Nat.zero_le _
  | cons char text ih =>
      have unit : 1 ≤ (doubleUnit marked char).length := by
        unfold doubleUnit
        split
        · obtain ⟨more, begins⟩ := escaped_eq_cons char
          rw [begins]
          exact Nat.le_add_left 1 _
        · exact Nat.le_refl 1
      rw [doubleContent_cons, List.length_append, List.length_cons]
      omega

/-- A character in double quotes is a space, or it belongs to a stretch. -/
theorem doubleUnit_cases (marked : Bool) (char : Char) :
    (char = ' ' ∧ doubleUnit marked char = [' ']) ∨
      ∀ text, NoGap (doubleUnit marked char ++ text) ∧
        doubleStretch? (doubleUnit marked char ++ text) =
          doubleStretch?.cons? (some char) (doubleStretch? text) := by
  unfold doubleUnit
  split
  · refine .inr fun text => ⟨?_, doubleStretch?_escaped char text⟩
    obtain ⟨more, begins⟩ := escaped_eq_cons char
    rw [begins]
    rintro _ ⟨⟩
    rfl
  · next raw =>
      simp only [Bool.not_eq_true, Bool.or_eq_false_iff, Bool.not_eq_false',
        beq_eq_false_iff_ne] at raw
      obtain ⟨⟨⟨⟨-, plain⟩, noBreak⟩, noQuote⟩, noEscape⟩ := raw
      cases gap : isGap char with
      | true =>
          have noTab : char ≠ '\t' := by
            rintro rfl
            cases plain
          obtain rfl := Style.eq_space_of_isGap gap noBreak noTab
          exact .inl ⟨rfl, rfl⟩
      | false =>
          refine .inr fun text => ⟨?_, ?_⟩
          · rintro _ ⟨⟩
            exact gap
          · rw [List.cons_append, List.nil_append, doubleStretch?]
            · simp [noQuote, gap]
            all_goals simp_all

/-- What is made of a gap and the text behind it. -/
def doubleGap (budget : Nat) (gap : Gap) (column : Nat) (text : List Char) :
    Option (List Char × List Char) := do
  let (gap, column, rest) ← Gap.read? 0 gap column text
  let (content, rest) ← double? budget (column == 0) rest
  return (gap.fold ++ content, rest)

/-- What is made of a stretch and what follows it. -/
def doubleBody (budget : Nat) (read : Option (List Char × Bool × List Char)) :
    Option (List Char × List Char) :=
  match read with
  | none => none
  | some (_, false, []) => none
  | some (stretch, _, '"' :: rest) => some (stretch, rest)
  | some (stretch, escaped, rest) =>
      (doubleGap budget { escaped } (if escaped then 0 else 1) rest).map
        fun (content, rest) => (stretch ++ content, rest)

theorem double?_succ (text : List Char) :
    double? (budget + 1) false text = doubleBody budget (doubleStretch? text) := by
  rw [double?, Bool.false_and, if_neg Bool.false_ne_true]
  have gaps (stretch : List Char) (escaped : Bool) (behind : List Char) :
      (do
        let (gap, column, rest) ← Gap.read? 0 { escaped } (if escaped then 0 else 1) behind
        let (content, rest) ← double? budget (column == 0) rest
        return (stretch ++ gap.fold ++ content, rest)) =
      (doubleGap budget { escaped } (if escaped then 0 else 1) behind).map
        fun (content, rest) => (stretch ++ content, rest) := by
    rw [doubleGap]
    cases Gap.read? 0 { escaped } (if escaped then 0 else 1) behind with
    | none => rfl
    | some found =>
        simp only [Option.bind_eq_bind, Option.bind_some]
        cases double? budget (found.2.1 == 0) found.2.2 with
        | none => rfl
        | some read => simp
  simp only [gaps]
  rfl

theorem doubleBody_cons (char : Char) (read : Option (List Char × Bool × List Char)) :
    doubleBody budget (doubleStretch?.cons? (some char) read) =
      withFirst char (doubleBody budget read) := by
  have behindGap (stretch : List Char) (content : Option (List Char × List Char)) :
      (content.map fun (content, rest) => (char :: stretch ++ content, rest)) =
        withFirst char (content.map fun (content, rest) => (stretch ++ content, rest)) := by
    cases content <;> rfl
  cases read with
  | none => rfl
  | some found =>
      obtain ⟨stretch, escaped, behind⟩ := found
      cases behind with
      | nil => cases escaped <;> first | rfl | exact behindGap stretch _
      | cons first behind =>
          by_cases quote : first = '"'
          · subst quote
            cases escaped <;> rfl
          · have goesOn (stretch : List Char) :
                doubleBody budget (some (stretch, escaped, first :: behind)) =
                  (doubleGap budget { escaped } (if escaped then 0 else 1) (first :: behind)).map
                    fun (content, rest) => (stretch ++ content, rest) := by
              rw [doubleBody]
              all_goals simp_all
            rw [doubleStretch?.cons?, goesOn, goesOn]
            exact behindGap stretch _

/-- The closing quote. -/
theorem double?_end : double? (budget + 1) false ('"' :: rest) = some ([], rest) := by
  rw [double?_succ, doubleStretch?]
  · rfl
  all_goals simp

theorem double?_space (text : List Char) :
    double? (budget + 1) false (' ' :: text) = doubleGap budget {} 1 (' ' :: text) := by
  have stretch : doubleStretch? (' ' :: text) = some ([], false, ' ' :: text) := by
    rw [doubleStretch?]
    · rfl
    all_goals simp
  rw [double?_succ, stretch, doubleBody]
  · simp
  all_goals simp

theorem doubleGap_stop {blanks : List Char} {column : Nat} {text content behind : List Char}
    (inside : 0 < column) (stops : NoGap text)
    (reads : double? budget false text = some (content, behind)) :
    doubleGap budget { blanks } column text = some (blanks ++ content, behind) := by
  have notFirst : (column == 0) = false := by
    simpa using Nat.ne_of_gt inside
  rw [doubleGap, Gap.read?_stop stops]
  simp [notFirst, reads, Gap.fold]

/-- A text in double quotes is read back from within a stretch or spaces on. -/
theorem double_content (marked : Bool) (text : List Char) :
    (∀ budget, text.length < budget →
      double? budget false (doubleContent marked text ++ '"' :: rest) = some (text, rest)) ∧
    (∀ budget blanks column, text.length < budget → 0 < column →
      doubleGap budget { blanks } column (doubleContent marked text ++ '"' :: rest) =
        some (blanks ++ text, rest)) := by
  have succ {budget least : Nat} (enough : least < budget) : ∃ less, budget = less + 1 :=
    Nat.exists_eq_add_one.mpr (Nat.zero_lt_of_lt enough)
  induction text with
  | nil =>
      have ends : ∀ budget, 0 < budget → double? budget false ('"' :: rest) = some ([], rest) := by
        intro budget enough
        obtain ⟨less, rfl⟩ := succ enough
        exact double?_end
      refine ⟨ends, ?_⟩
      intro budget blanks column enough inside
      apply doubleGap_stop inside _ (ends budget enough)
      rintro _ ⟨⟩
      rfl
  | cons char text ih =>
      obtain ⟨stretches, spaces⟩ := ih
      rw [doubleContent_cons, List.append_assoc]
      rcases doubleUnit_cases marked char with ⟨rfl, raw⟩ | stretch
      · rw [raw, List.cons_append, List.nil_append]
        constructor
        · intro budget enough
          obtain ⟨less, rfl⟩ := succ enough
          rw [double?_space, doubleGap, Gap.read?_space rfl]
          exact spaces less [' '] 2 (Nat.lt_of_succ_lt_succ enough) (by omega)
        · intro budget blanks column enough inside
          rw [doubleGap, Gap.read?_space rfl]
          have more := spaces budget (blanks ++ [' ']) (column + 1) (Nat.lt_of_succ_lt enough)
            (Nat.succ_pos column)
          rw [List.append_assoc] at more
          exact more
      · obtain ⟨stops, unit⟩ := stretch (doubleContent marked text ++ '"' :: rest)
        have goesOn : ∀ budget, (char :: text).length < budget →
            double? budget false
                (doubleUnit marked char ++ (doubleContent marked text ++ '"' :: rest)) =
              some (char :: text, rest) := by
          intro budget enough
          have reads := stretches budget (Nat.lt_of_succ_lt enough)
          -- A unit takes no step of its own: it is read with the stretch behind it.
          obtain ⟨less, rfl⟩ := succ enough
          rw [double?_succ] at reads
          rw [double?_succ, unit, doubleBody_cons, reads]
          rfl
        refine ⟨goesOn, ?_⟩
        intro budget blanks column enough inside
        exact doubleGap_stop inside stops (goesOn budget enough)

theorem double?_content (marked : Bool) {text : List Char} (enough : text.length < budget) :
    double? budget false (doubleContent marked text ++ '"' :: rest) = some (text, rest) :=
  (double_content marked text).1 budget enough

end Double

end Stencil.Yaml
