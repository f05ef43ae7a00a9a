import Stencil.Proofs.MatchExactness
import Stencil.Proofs.Utf8
import Stencil.Text.Blank

/-!
# Character boundaries

Every place where a reading of a well-formed text puts a cut lies between two
characters: behind white space, at or behind a delimiter or a literal, or at the
end of the text.  So the stretches between the cuts are well-formed.
-/

namespace Stencil

namespace Utf8

theorem valid_of_ascii {text : Bytes} (ascii : ∀ b ∈ text, b < 0x80) : Valid text := by
  refine ⟨text.map fun b => Char.ofNat b.toNat, ?_⟩
  induction text with
  | nil => rfl
  | cons b text ih =>
      have small : width? [b] = some 1 := by simp [width?, ascii b List.mem_cons_self]
      have single : String.utf8EncodeChar (Char.ofNat b.toNat) = [b] :=
        (encode_codePoint small).1
      rw [List.map_cons, encode_cons, single,
        ← ih fun later member => ascii later (List.mem_cons_of_mem _ member)]
      rfl

theorem isContinuation_of_ascii {b : UInt8} (ascii : b < 0x80) : isContinuation b = false := by
  rw [UInt8.lt_iff_toNat_lt] at ascii
  rw [← Bool.not_eq_true, isContinuation_iff]
  intro continues
  have lower : (0x80 : UInt8).toNat = 128 := rfl
  omega

theorem ascii_of_isSpace {b : UInt8} (space : Bytes.isSpace b = true) : b < 0x80 := by
  simp only [Bytes.isSpace, Bool.or_eq_true, beq_iff_eq, Bool.and_eq_true,
    decide_eq_true_eq] at space
  rcases space with rfl | ⟨_, below⟩
  · decide
  · exact UInt8.lt_of_le_of_lt below (by decide)

theorem ascii_of_isIdent {b : UInt8} (ident : Bytes.isIdent b = true) : b < 0x80 := by
  simp only [Bytes.isIdent, Bool.or_eq_true, beq_iff_eq, Bool.and_eq_true,
    decide_eq_true_eq] at ident
  rcases ident with ((rfl | ⟨_, below⟩) | ⟨_, below⟩) | ⟨_, below⟩
  · decide
  · exact UInt8.lt_of_le_of_lt below (by decide)
  · exact UInt8.lt_of_le_of_lt below (by decide)
  · exact UInt8.lt_of_le_of_lt below (by decide)

/-- A run of ASCII at the beginning of a well-formed text can be split off. -/
theorem Valid.span {p : UInt8 → Bool} (ascii : ∀ b, p b = true → b < 0x80) {text : Bytes}
    (valid : Valid text) : Valid (text.takeWhile p) ∧ Valid (text.dropWhile p) := by
  have run : Valid (text.takeWhile p) :=
    valid_of_ascii fun b member => ascii b (List.all_eq_true.mp List.all_takeWhile b member)
  refine ⟨run, Valid.of_append_left ?_ run⟩
  rwa [List.takeWhile_append_dropWhile]

theorem Valid.trim {text : Bytes} (valid : Valid text) : Valid text.trim := by
  have known := List.all_eq_true.mp (isValid_iff.mpr valid)
  apply valid_flatMap
  intro unit member
  have listed : unit ∈ units text := by
    apply (List.dropWhile_suffix _).subset
    apply List.mem_reverse.mp
    exact (List.dropWhile_suffix _).subset (List.mem_reverse.mp member)
  exact valid_of_mem_units listed (known unit listed)

/-- A place between two characters, or at an end of the text. -/
def Boundary (text : Bytes) (place : Nat) : Prop :=
  Valid (text.take place) ∧ Valid (text.drop place)

section Boundary

variable {text : Bytes}

theorem boundary_of_aligned {place : Nat} (valid : Valid text)
    (aligned : Aligned (text.drop place)) : Boundary text place := by
  apply Valid.split _ aligned
  rwa [List.take_append_drop]

theorem boundary_of_drop {place : Nat} (valid : Valid text) (behind : Valid (text.drop place)) :
    Boundary text place :=
  boundary_of_aligned valid behind.aligned

theorem boundary_zero (valid : Valid text) : Boundary text 0 :=
  boundary_of_drop valid valid

theorem boundary_length (valid : Valid text) : Boundary text text.length :=
  boundary_of_drop valid (by simp)

theorem boundary_of_occurs {needle : Bytes} {place : Nat} (valid : Valid text)
    (needleValid : Valid needle) (nonempty : needle ≠ []) (occurs : needle <+: text.drop place) :
    Boundary text place :=
  boundary_of_aligned valid (needleValid.aligned.of_occurs nonempty occurs)

theorem Boundary.between {start stop : Nat} (first : Boundary text start)
    (last : Boundary text stop) (ordered : start ≤ stop) : Valid (text.between start stop) := by
  have whole := first.2
  rw [← Bytes.between_append_drop ordered] at whole
  exact whole.of_append_right last.2

/-- A well-formed part leads from one boundary to the next. -/
theorem Boundary.next {start stop : Nat} (valid : Valid text) (first : Boundary text start)
    (ordered : start ≤ stop) (part : Valid (text.between start stop)) : Boundary text stop := by
  have whole := first.2
  rw [← Bytes.between_append_drop ordered] at whole
  exact boundary_of_drop valid (whole.of_append_left part)

end Boundary

end Utf8

open Utf8

theorem SpaceRun.boundary {text : Bytes} {start stop : Nat} (run : SpaceRun text start stop)
    (valid : Valid text) (first : Boundary text start) : Boundary text stop :=
  first.next valid run.ordered
    (valid_of_ascii fun b member => ascii_of_isSpace (run.space b member))

/-- The inside of a block and the text after it. -/
theorem Block.read?_valid {opener closer text : Bytes} {block : Block}
    (openerValid : Valid opener) (closerValid : Valid closer) (nonempty : closer ≠ [])
    (valid : Valid text) (found : Block.read? opener closer text = some block) :
    Valid block.inner ∧ Valid block.rest := by
  rw [read?_append found] at valid
  have behind := valid.of_append_left openerValid
  cases closed : block.closed with
  | true =>
      -- the closer begins a character, so the inside ends in front of one
      rw [ending, closed, if_pos rfl] at behind
      obtain ⟨inner, rest⟩ := behind.split
        (closerValid.aligned.of_occurs nonempty (List.prefix_append _ _))
      exact ⟨inner, rest.of_append_left closerValid⟩
  | false =>
      rw [ending, closed, read?_rest_of_open found closed] at behind
      simp only [Bool.false_eq_true, if_false, List.append_nil] at behind
      exact ⟨behind, read?_rest_of_open found closed ▸ valid_nil⟩

/-- The texts a token looks for are well-formed. -/
def Token.ValidTexts (token : Token) : Prop :=
  match token.element with
  | .literal => Valid token.text.text
  | .space | .variable _ => True
  | .block _ delimiters | .blocks _ delimiters =>
      Valid delimiters.opener ∧ Valid delimiters.closer

/-- The value of a capture and its parts are well-formed. -/
def Capture.Valid (capture : Capture) : Prop :=
  Utf8.Valid capture.value.text ∧
    ∀ parts ∈ capture.parts, ∀ part ∈ parts, Utf8.Valid part.text

/-- The match begins and ends between characters, and its captures are
well-formed. -/
structure Match.Valid (text : Bytes) (found : Match) : Prop where
  start : Boundary text found.start
  stop : Boundary text found.stop
  captures : ∀ capture ∈ found.captures, capture.Valid

theorem Token.ValidTexts.opening {token : Token} {opening : Bytes} (texts : token.ValidTexts)
    (begins : token.opening? = some opening) : Utf8.Valid opening := by
  unfold ValidTexts at texts
  unfold opening? at begins
  split at begins
  · next literal =>
      cases begins
      simpa [literal] using texts
  · next block =>
      cases begins
      simp only [block] at texts
      exact texts.1
  · next blocks =>
      cases begins
      simp only [blocks] at texts
      exact texts.1
  · cases begins

section Reading

variable {strict : Bool} {text : Bytes}

/-- A word ends where something begins that begins a character. -/
theorem Word.boundary {later : List Token} {start stop : Nat} (word : Word text later start stop)
    (valid : Valid text) (wellFormed : ∀ token ∈ later, token.WellFormed)
    (texts : ∀ token ∈ later, token.ValidTexts) : Boundary text stop := by
  rcases word.ended with rfl | ⟨b, here, space⟩ | ⟨spaces, next, rest, opening, rfl, _, _, begins,
    occurs⟩
  · exact boundary_length valid
  · apply boundary_of_aligned valid
    intro first same
    rw [List.head?_drop] at same
    cases Option.some.inj (here.symm.trans same)
    exact isContinuation_of_ascii (ascii_of_isSpace space)
  · have member : next ∈ spaces ++ next :: rest := by simp
    exact boundary_of_occurs valid ((texts next member).opening begins)
      ((wellFormed next member).opening_ne_nil begins) occurs

theorem BlockAt.valid {delimiters : Delimiters} {start stop : Nat} {block : Block}
    (found : BlockAt text delimiters start block stop) (valid : Valid text)
    (opener : Valid delimiters.opener) (closer : Valid delimiters.closer)
    (nonempty : delimiters.closer ≠ []) (first : Boundary text start) :
    Valid block.inner ∧ Boundary text stop := by
  obtain ⟨inner, rest⟩ := Block.read?_valid opener closer nonempty first.2 found.read
  rw [found.rest] at rest
  exact ⟨inner, boundary_of_drop valid rest⟩

theorem BlockRun.valid {delimiters : Delimiters} {start stop : Nat} {inners : List Slice}
    (run : BlockRun strict text delimiters start inners stop) (valid : Valid text)
    (opener : Valid delimiters.opener) (closer : Valid delimiters.closer)
    (nonempty : delimiters.closer ≠ []) (first : Boundary text start) :
    (∀ inner ∈ inners, Valid inner.text) ∧ Boundary text stop := by
  induction run with
  | last found _ _ =>
      obtain ⟨inner, behind⟩ := found.valid valid opener closer nonempty first
      refine ⟨?_, behind⟩
      intro slice member
      rw [List.mem_singleton.mp member]
      exact inner
  | more found _ space _ _ ih =>
      obtain ⟨inner, behind⟩ := found.valid valid opener closer nonempty first
      obtain ⟨others, last⟩ := ih (space.boundary valid behind)
      refine ⟨?_, last⟩
      intro slice member
      rcases List.mem_cons.mp member with rfl | later
      · exact inner
      · exact others slice later

theorem Capture.valid_of_value {capture : Capture} (value : Utf8.Valid capture.value.text)
    (whole : capture.parts = none) : capture.Valid := by
  refine ⟨value, ?_⟩
  rw [whole]
  intro parts impossible
  cases impossible

/-- An absent token ends where it begins. -/
theorem Share.Absent.valid {share : Share} {reference : Reference} {delimiters : Delimiters}
    (absent : share.Absent text reference delimiters) (first : Boundary text share.start) :
    Boundary text share.stop ∧ ∀ capture ∈ share.capture, capture.Valid := by
  obtain ⟨_, _, empty, captured⟩ := absent
  rw [empty, captured]
  refine ⟨first, ?_⟩
  rintro capture ⟨⟩
  exact Capture.valid_of_value valid_nil rfl

/-- A share that begins between characters ends between characters. -/
theorem Share.Fits.valid {earlier : List Share} {share : Share} {later : List Token}
    (fits : share.Fits strict text earlier later) (valid : Valid text)
    (ordered : share.start ≤ share.stop)
    (wellFormed : ∀ token ∈ share.token :: later, token.WellFormed)
    (texts : ∀ token ∈ share.token :: later, token.ValidTexts)
    (first : Boundary text share.start) :
    Boundary text share.stop ∧ ∀ capture ∈ share.capture, capture.Valid := by
  obtain ⟨own, laterWellFormed⟩ := List.forall_mem_cons.mp wellFormed
  obtain ⟨ownTexts, laterTexts⟩ := List.forall_mem_cons.mp texts
  unfold Fits at fits
  unfold Token.WellFormed at own
  unfold Token.ValidTexts at ownTexts
  split at fits
  · next literal =>
      simp only [literal] at ownTexts
      obtain ⟨taken, captured⟩ := fits
      refine ⟨first.next valid ordered (taken ▸ ownTexts), ?_⟩
      rw [captured]
      rintro capture ⟨⟩
  · obtain ⟨run, _, captured⟩ := fits
    refine ⟨run.boundary valid first, ?_⟩
    rw [captured]
    rintro capture ⟨⟩
  · obtain ⟨begin, spaces, word, _, captured⟩ := fits
    have begins : Boundary text begin := by
      split at spaces
      · rw [spaces]
        exact first
      · exact spaces.boundary valid first
    have ends := word.boundary valid laterWellFormed laterTexts
    refine ⟨ends, ?_⟩
    rw [captured]
    rintro capture ⟨⟩
    exact Capture.valid_of_value (begins.between ends word.ordered) rfl
  · next reference delimiters block =>
      simp only [block] at own ownTexts
      rcases fits with ⟨read, found, _, captured⟩ | absent
      · obtain ⟨inner, ends⟩ := found.valid valid ownTexts.1 ownTexts.2 own.2 first
        refine ⟨ends, ?_⟩
        rw [captured]
        rintro capture ⟨⟩
        exact Capture.valid_of_value inner rfl
      · exact absent.valid first
  · next reference delimiters blocks =>
      simp only [blocks] at own ownTexts
      rcases fits with ⟨inners, run, captured⟩ | absent
      · obtain ⟨each, ends⟩ := run.valid valid ownTexts.1 ownTexts.2 own.2 first
        refine ⟨ends, ?_⟩
        rw [captured]
        rintro capture ⟨⟩
        refine ⟨first.between ends ordered, ?_⟩
        rintro parts ⟨⟩
        exact each
      · exact absent.valid first

/-- A reading that begins between characters ends between characters. -/
theorem Reading.valid {earlier : List Share} {tokens : List Token} {start stop : Nat}
    {shares : List Share} (reading : Reading strict text earlier tokens start shares stop)
    (valid : Valid text) (wellFormed : ∀ token ∈ tokens, token.WellFormed)
    (texts : ∀ token ∈ tokens, token.ValidTexts) (first : Boundary text start) :
    Boundary text stop ∧ ∀ capture ∈ shares.filterMap Share.capture, capture.Valid := by
  induction tokens generalizing earlier start shares with
  | nil =>
      obtain rfl := List.map_eq_nil_iff.mp reading.tokens
      cases reading.consecutive
      exact ⟨first, by simp⟩
  | cons token tokens ih =>
      obtain ⟨share, rest, rfl, rfl, rfl, ordered, fits, later⟩ := reading.uncons
      obtain ⟨behind, captured⟩ := fits.valid valid ordered wellFormed texts first
      obtain ⟨last, others⟩ := ih later
        (List.forall_mem_cons.mp wellFormed).2 (List.forall_mem_cons.mp texts).2 behind
      refine ⟨last, ?_⟩
      intro capture member
      obtain ⟨owner, listed, same⟩ := List.mem_filterMap.mp member
      rcases List.mem_cons.mp listed with rfl | later
      · exact captured capture same
      · exact others capture (List.mem_filterMap.mpr ⟨owner, later, same⟩)

end Reading

end Stencil
