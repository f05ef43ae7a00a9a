import Mathlib.Data.List.Sort
import Stencil.Proofs.PatternRoundTrip
import Stencil.Proofs.PlainPattern

/-!
# References to words

A pattern of variables with white space between them hands out the words of the text, one
by one and from left to right.  It matches if there are enough words for the references
that are not optional.  The references that find no word left are empty, and then the match
takes all of the text.

The words are described by their places (`WordsFrom`).  The matcher meets them one behind
the other, and `Wording` lists them that way.
-/

namespace Stencil

/-- A stretch of the text without white space, up to white space or the end of the text. -/
structure IsWord (text : Bytes) (word : Slice) : Prop where
  nonempty : word.text ≠ []
  stands : word.Of text
  solid : Bytes.Solid word.text
  ended : ∀ b ∈ text[word.stop]?, Bytes.isSpace b = true

/-- A maximal stretch without white space of the text from `start` on. -/
structure WordFrom (text : Bytes) (start : Nat) (word : Slice) : Prop extends
    IsWord text word where
  behind : start ≤ word.start
  begins : ∀ place, start ≤ place → place + 1 = word.start →
    ∀ b ∈ text[place]?, Bytes.isSpace b = true

/-- All words of the text from `start` on, from left to right. -/
structure WordsFrom (text : Bytes) (start : Nat) (words : List Slice) : Prop where
  complete : ∀ word, word ∈ words ↔ WordFrom text start word
  ordered : words.Pairwise fun first second => first.stop < second.start

/-- The words from a place on, each one behind the white space in front of it. -/
inductive Wording (text : Bytes) : Nat → List Slice → Prop where
  | done {place : Nat} : SpaceRun text place text.length → Wording text place []
  | word {place : Nat} {word : Slice} {words : List Slice} :
      SpaceRun text place word.start → IsWord text word → Wording text word.stop words →
      Wording text place (word :: words)

section Words

variable {text : Bytes} {place start stop : Nat} {word other : Slice} {words : List Slice}

theorem SpaceRun.space_at (run : SpaceRun text start stop) (lower : start ≤ place)
    (upper : place < stop) : ∀ b ∈ text[place]?, Bytes.isSpace b = true := by
  intro b here
  have listed : (text.between start stop)[place - start]? = some b := by
    rw [Bytes.between, List.getElem?_take_of_lt (by omega), List.getElem?_drop,
      Nat.add_sub_of_le lower]
    exact here
  exact run.space b (List.mem_of_getElem? listed)

theorem SpaceRun.again (run : SpaceRun text start stop) : SpaceRun text stop stop where
  ordered := Nat.le_refl _
  inside := run.inside
  space := by simp
  maximal := run.maximal

namespace IsWord

theorem start_lt_stop (isWord : IsWord text word) : word.start < word.stop :=
  Nat.lt_add_of_pos_right (List.length_pos_iff.mpr isWord.nonempty)

theorem inside (isWord : IsWord text word) : word.stop ≤ text.length := by
  have bound := isWord.stands.length_le
  have long := List.length_pos_iff.mpr isWord.nonempty
  rw [List.length_drop] at bound
  simp only [Slice.stop, Slice.length]
  omega

theorem not_space_at (isWord : IsWord text word) (lower : word.start ≤ place)
    (upper : place < word.stop) : ¬ ∀ b ∈ text[place]?, Bytes.isSpace b = true := by
  obtain ⟨rest, whole⟩ := isWord.stands
  have short : place - word.start < word.text.length := by
    simp only [Slice.stop, Slice.length] at upper
    omega
  have here : text[place]? = some (word.text.get ⟨place - word.start, short⟩) := by
    calc text[place]? = (text.drop word.start)[place - word.start]? := by
          rw [List.getElem?_drop, Nat.add_sub_of_le lower]
      _ = word.text[place - word.start]? := by
          rw [← whole, List.getElem?_append_left short]
      _ = some (word.text.get ⟨place - word.start, short⟩) := List.getElem?_eq_getElem short
  intro space
  have blank := space _ here
  rw [isWord.solid _ (List.get_mem _ _)] at blank
  cases blank

theorem stop_le (isWord : IsWord text word) (otherWord : IsWord text other)
    (same : word.start = other.start) : other.stop ≤ word.stop := by
  by_contra longer
  have lower := isWord.start_lt_stop
  exact otherWord.not_space_at (by omega) (Nat.lt_of_not_le longer) isWord.ended

theorem eq_of_start (isWord : IsWord text word) (otherWord : IsWord text other)
    (same : word.start = other.start) : word = other := by
  have stops := Nat.le_antisymm (otherWord.stop_le isWord same.symm) (isWord.stop_le otherWord same)
  have stands := isWord.stands
  have otherStands := otherWord.stands
  obtain ⟨start, text⟩ := word
  obtain ⟨_, otherText⟩ := other
  obtain rfl : start = _ := same
  have lengths : text.length = otherText.length := Nat.add_left_cancel stops
  have begins := List.prefix_of_prefix_length_le stands otherStands (Nat.le_of_eq lengths)
  obtain rfl : text = otherText := begins.eq_of_length lengths
  rfl

end IsWord

/-- Where no white space is, a word begins. -/
theorem isWord_takeWhile (inside : place < text.length)
    (solid : ∀ b ∈ text[place]?, Bytes.isSpace b = false) :
    IsWord text ⟨place, (text.drop place).takeWhile fun b => !Bytes.isSpace b⟩ := by
  have split := (List.takeWhile_append_dropWhile (p := fun b => !Bytes.isSpace b)
    (l := text.drop place)).symm
  constructor
  · obtain ⟨b, rest, more⟩ := List.exists_cons_of_ne_nil (Bytes.drop_ne_nil inside)
    simp [more, solid b (drop_eq_cons more).1]
  · exact List.takeWhile_prefix _
  · intro b member
    simpa using List.all_eq_true.mp List.all_takeWhile b member
  · intro b next
    rw [Slice.stop, Slice.length, ← List.head?_drop, ← (Bytes.drop_eq_append split).2] at next
    have stops := List.head?_dropWhile_not (fun b => !Bytes.isSpace b) (text.drop place)
    rw [Option.mem_def.mp next] at stops
    simpa using stops

theorem WordFrom.stop_lt_start (isWord : IsWord text word) (later : WordFrom text word.stop other) :
    word.stop < other.start := by
  refine Nat.lt_of_le_of_ne later.behind fun touching => ?_
  exact later.not_space_at (Nat.le_of_eq touching.symm)
    (touching ▸ later.start_lt_stop) isWord.ended

/-- A word from a place on is the first one behind the white space, or one behind that. -/
theorem wordFrom_iff (space : SpaceRun text place word.start) (isWord : IsWord text word) :
    WordFrom text place other ↔ other = word ∨ WordFrom text word.stop other := by
  have forward := isWord.start_lt_stop
  constructor
  · intro found
    rcases Nat.lt_trichotomy other.start word.start with before | same | after
    · exact absurd (space.space_at found.behind before)
        (found.not_space_at (Nat.le_refl _) found.start_lt_stop)
    · exact .inl (found.eq_of_start isWord same)
    · right
      -- a word does not begin inside of another
      have apart : word.stop ≤ other.start := by
        by_contra inner
        have ordered := space.ordered
        have blank : ∀ b ∈ text[other.start - 1]?, Bytes.isSpace b = true :=
          found.begins _ (by omega) (by omega)
        exact isWord.not_space_at (by omega) (by omega) blank
      refine ⟨found.toIsWord, apart, ?_⟩
      intro place lower touching
      have ordered := space.ordered
      exact found.begins place (by omega) touching
  · rintro (rfl | later)
    · exact ⟨isWord, space.ordered, fun place lower touching =>
        space.space_at lower (by omega)⟩
    · have apart := WordFrom.stop_lt_start isWord later
      have ordered := space.ordered
      refine ⟨later.toIsWord, by omega, ?_⟩
      intro place _ touching
      exact later.begins place (by omega) touching

theorem not_wordFrom_of_space (space : SpaceRun text place text.length) :
    ¬ WordFrom text place word := by
  intro found
  have forward := found.start_lt_stop
  exact found.not_space_at (Nat.le_refl _) forward
    (space.space_at found.behind (Nat.lt_of_lt_of_le forward found.inside))

theorem Wording.wordsFrom (wording : Wording text place words) : WordsFrom text place words := by
  induction wording with
  | done space =>
      exact ⟨fun word => by simp [not_wordFrom_of_space space], List.Pairwise.nil⟩
  | word space isWord _ ih =>
      refine ⟨fun other => ?_, List.pairwise_cons.mpr ⟨?_, ih.ordered⟩⟩
      · rw [List.mem_cons, ih.complete, wordFrom_iff space isWord]
      · intro other member
        exact WordFrom.stop_lt_start isWord ((ih.complete other).mp member)

/-- A text has its words in one order only. -/
theorem WordsFrom.unique {others : List Slice} (wordsFrom : WordsFrom text start words)
    (othersFrom : WordsFrom text start others) : words = others := by
  let precedes : Slice → Slice → Prop := fun first second => first.stop < second.start
  have irrefl : ∀ slice, ¬ precedes slice slice := fun slice =>
    Nat.not_lt.mpr (Nat.le_add_right _ _)
  have : Std.Irrefl precedes := ⟨irrefl⟩
  have : Std.Antisymm precedes := ⟨fun first second forward backward => by
    have firstForward : first.start ≤ first.stop := Nat.le_add_right _ _
    have secondForward : second.start ≤ second.stop := Nat.le_add_right _ _
    simp only [precedes] at forward backward
    omega⟩
  refine List.Pairwise.eq_of_mem_iff (r := precedes) wordsFrom.ordered othersFrom.ordered ?_
  intro word
  rw [wordsFrom.complete, othersFrom.complete]

theorem exists_wording (inside : place ≤ text.length) : ∃ words, Wording text place words := by
  -- every further word ends later in the text
  induction remaining : text.length - place using Nat.strongRecOn generalizing place with
  | _ remaining ih =>
      obtain ⟨first, space⟩ : ∃ first, SpaceRun text place first := ⟨_, spaceRun_takeWhile inside⟩
      rcases Nat.eq_or_lt_of_le space.inside with rfl | more
      · exact ⟨[], .done space⟩
      · have isWord := isWord_takeWhile more space.maximal
        have long : 0 < ((text.drop first).takeWhile fun b => !Bytes.isSpace b).length :=
          List.length_pos_iff.mpr isWord.nonempty
        have ordered := space.ordered
        have bound := Bytes.stop_le_of_split space.inside
          (List.takeWhile_append_dropWhile (p := fun b => !Bytes.isSpace b)).symm
        obtain ⟨words, wording⟩ := ih _ (by omega) bound rfl
        exact ⟨_, .word space isWord wording⟩

/-- A variable begins behind the white space, whether or not it was skipped before. -/
theorem SpaceRun.start_eq {afterSpace : Bool} (space : SpaceRun text place stop)
    (ready : afterSpace = true →
      (Cursor.inside text place).skipSpace = Cursor.inside text place) :
    (if afterSpace then Cursor.inside text place else (Cursor.inside text place).skipSpace) =
      Cursor.inside text stop := by
  rw [← space.skipSpace_eq]
  cases afterSpace with
  | true => exact (ready rfl).symm
  | false => rfl

theorem Wording.skip {first : Nat} (wording : Wording text place words)
    (space : SpaceRun text place first) : Wording text first words := by
  cases wording with
  | done all =>
      obtain rfl : first = text.length := space.stop_eq.symm.trans all.stop_eq
      exact .done space.again
  | word before isWord later =>
      have same := space.stop_eq.symm.trans before.stop_eq
      subst same
      exact .word space.again isWord later

theorem Wording.eq_nil (wording : Wording text place words) (ended : text[place]? = none) :
    words = [] := by
  cases wording with
  | done => rfl
  | @word _ word words space isWord later =>
      have missing : text[word.start]? = none :=
        List.getElem?_eq_none (Nat.le_trans (List.getElem?_eq_none_iff.mp ended) space.ordered)
      exact absurd (by simp [missing]) (isWord.not_space_at (Nat.le_refl _) isWord.start_lt_stop)

end Words

namespace Token

section Variable

variable {strict afterSpace skipped : Bool} {token : Token} {later : List Token}
  {reference : Reference} {cursor : Cursor} {text : Bytes} {word : Slice}

theorem wordLength_none {part rest : Bytes} (solid : Bytes.Solid part)
    (ended : ∀ b ∈ rest.head?, Bytes.isSpace b = true) :
    wordLength none (part ++ rest) = part.length := by
  induction part with
  | nil =>
      cases rest with
      | nil => rfl
      | cons b rest => simp [wordLength, ended b rfl]
  | cons b part ih =>
      obtain ⟨here, others⟩ := List.forall_mem_cons.mp solid
      simp [wordLength, here, ih others]

theorem run?_of_capture {moved : Cursor} {capture : Capture} {nothing : Bool}
    (stepped : step? strict afterSpace skipped later token cursor =
      some ⟨moved, some capture, nothing⟩) :
    run? strict afterSpace skipped (token :: later) cursor =
      (run? strict token.isSpace nothing later moved).map
        fun (captures, last) => (capture :: captures, last) := by
  rw [run?, stepped]
  rfl

/-- A variable in front of nothing that it could recognise captures the word that is there. -/
theorem run?_variable_word (isVariable : token.element = .variable reference)
    (unseen : (firstSignificant? later).bind opening? = none) (isWord : IsWord text word)
    (moved : (if afterSpace then cursor else cursor.skipSpace) = Cursor.inside text word.start) :
    run? strict afterSpace skipped (token :: later) cursor =
      (run? strict false false later (Cursor.inside text word.stop)).map
        fun (captures, last) =>
          ({ name := reference.name.text, value := word } :: captures, last) := by
  have significant : token.isSpace = false := by simp [isSpace, isVariable]
  obtain ⟨rest, whole⟩ := isWord.stands
  have ended : ∀ b ∈ rest.head?, Bytes.isSpace b = true := by
    rw [(Bytes.drop_eq_append whole.symm).2, List.head?_drop]
    exact isWord.ended
  have length : wordLength none (text.drop word.start) = word.length := by
    rw [← whole]
    exact wordLength_none isWord.solid ended
  have taken : (text.drop word.start).take word.length = word.text := by
    rw [← whole]
    exact List.take_left
  have long : ¬ word.length = 0 := Nat.ne_of_gt (List.length_pos_iff.mpr isWord.nonempty)
  have stepped : step? strict afterSpace skipped later token cursor =
      some ⟨Cursor.inside text word.stop, some { name := reference.name.text, value := word },
        false⟩ := by
    simp [step?, isVariable, moved, unseen, length, taken, long, Cursor.inside_advance, Slice.stop]
  rw [run?_of_capture stepped, significant]

/-- At the end of the text a variable is empty, if it may be. -/
theorem run?_variable_end (isVariable : token.element = .variable reference)
    (moved : (if afterSpace then cursor else cursor.skipSpace) =
      Cursor.inside text text.length) :
    run? strict afterSpace skipped (token :: later) cursor =
      if reference.optional then
        (run? strict false true later (Cursor.inside text text.length)).map
          fun (captures, last) =>
            ({ name := reference.name.text, value := ⟨text.length, []⟩ } :: captures, last)
      else none := by
  have significant : token.isSpace = false := by simp [isSpace, isVariable]
  split
  · next optional =>
      have stepped : step? strict afterSpace skipped later token cursor =
          some ⟨Cursor.inside text text.length,
            some { name := reference.name.text, value := ⟨text.length, []⟩ }, true⟩ := by
        simp [step?, isVariable, moved, optional, wordLength, Cursor.inside_advance]
      rw [run?_of_capture stepped, significant]
  · next mandatory =>
      apply run?_of_step?_none
      simp [step?, isVariable, moved, mandatory, wordLength]

end Variable

end Token

namespace Pattern

/-- The name of a reference and the white space in front of it. -/
structure SpacedName where
  space : Bytes
  name : Bytes
  nonempty : space ≠ []
  blank : Bytes.Blank space
  ident : ∀ b ∈ name, Bytes.isIdent b = true

/-- Variables with white space between them, the first ones mandatory and the others
optional. -/
def wordItems (mandatory : Nat) (name : Bytes) : List SpacedName → List Item
  | [] => [.variable name (mandatory == 0)]
  | next :: others =>
      .variable name (mandatory == 0) :: .space next.space ::
        wordItems (mandatory - 1) next.name others

/-- One or more references to words.  The first `mandatory` ones need a word. -/
structure WordPattern where
  first : Bytes
  ident : ∀ b ∈ first, Bytes.isIdent b = true
  others : List SpacedName
  mandatory : Nat
  bounded : mandatory ≤ others.length + 1

namespace WordPattern

def names (words : WordPattern) : List Bytes :=
  words.first :: words.others.map SpacedName.name

/-- The pattern as it is written. -/
def source (words : WordPattern) : Bytes :=
  render (wordItems words.mandatory words.first words.others)

end WordPattern

/-- The word at an index, or else nothing at the end of the text. -/
def wordAt (text : Bytes) (words : List Slice) (index : Nat) : Slice :=
  words[index]?.getD ⟨text.length, []⟩

/-- Every name with the word at its index. -/
def assigned (text : Bytes) (words : List Slice) (names : List Bytes) : List Capture :=
  names.mapIdx fun index name => { name, value := wordAt text words index }

@[simp] theorem wordAt_nil (text : Bytes) (index : Nat) :
    wordAt text [] index = ⟨text.length, []⟩ :=
  rfl

@[simp] theorem wordAt_cons_zero (text : Bytes) (word : Slice) (words : List Slice) :
    wordAt text (word :: words) 0 = word :=
  rfl

@[simp] theorem wordAt_cons_succ (text : Bytes) (word : Slice) (words : List Slice)
    (index : Nat) : wordAt text (word :: words) (index + 1) = wordAt text words index :=
  rfl

theorem assigned_nil_cons (text name : Bytes) (names : List Bytes) :
    assigned text [] (name :: names) =
      { name, value := ⟨text.length, []⟩ } :: assigned text [] names := by
  simp [assigned, List.mapIdx_cons]

theorem assigned_cons_cons (text name : Bytes) (names : List Bytes) (word : Slice)
    (words : List Slice) :
    assigned text (word :: words) (name :: names) =
      { name, value := word } :: assigned text words names := by
  simp [assigned, List.mapIdx_cons]

section Items

variable {mandatory : Nat} {name : Bytes} {others : List SpacedName}

theorem head?_wordItems (mandatory : Nat) (name : Bytes) (others : List SpacedName) :
    (wordItems mandatory name others).head? = some (.variable name (mandatory == 0)) := by
  cases others <;> rfl

theorem wordItems_wellFormed (ident : ∀ b ∈ name, Bytes.isIdent b = true) :
    ∀ item ∈ wordItems mandatory name others, item.WellFormed := by
  induction others generalizing mandatory name with
  | nil => exact List.forall_mem_singleton.mpr ident
  | cons next others ih =>
      refine List.forall_mem_cons.mpr ⟨ident, List.forall_mem_cons.mpr ⟨?_, ih next.ident⟩⟩
      exact ⟨next.nonempty, next.blank⟩

theorem wordItems_apart : (wordItems mandatory name others).IsChain Item.Apart := by
  induction others generalizing mandatory name with
  | nil => exact .singleton _
  | cons next others ih =>
      refine .cons_cons rfl (List.isChain_cons.mpr ⟨?_, ih⟩)
      rw [head?_wordItems]
      rintro _ ⟨⟩
      trivial

theorem map_filled_wordItems :
    (wordItems mandatory name others).map Item.filled = wordItems mandatory name others := by
  induction others generalizing mandatory name with
  | nil => rfl
  | cons next others ih =>
      rw [wordItems, List.map_cons, List.map_cons, ih]
      rfl

theorem element_of_itemOf_variable {token : Token} {optional : Bool}
    (said : itemOf token = .variable name optional) :
    ∃ place, token.element = .variable ⟨⟨place, name⟩, optional⟩ := by
  unfold itemOf at said
  split at said
  · cases said
  · cases said
  · next element =>
      cases said
      exact ⟨_, element⟩
  · cases said
  · cases said

theorem element_of_itemOf_space {token : Token} {text : Bytes}
    (said : itemOf token = .space text) : token.element = .space := by
  unfold itemOf at said
  split at said
  · cases said
  · next element => exact element
  · cases said
  · cases said
  · cases said

end Items

end Pattern

/-- Tokens for variables with white space between them, the first ones mandatory. -/
inductive Token.Refers : Nat → Bytes → List Bytes → List Token → Prop where
  | last {mandatory place : Nat} {name : Bytes} {token : Token} :
      token.element = .variable ⟨⟨place, name⟩, mandatory == 0⟩ →
      Refers mandatory name [] [token]
  | more {mandatory place : Nat} {name next : Bytes} {others : List Bytes} {token space : Token}
      {tokens : List Token} :
      token.element = .variable ⟨⟨place, name⟩, mandatory == 0⟩ → space.element = .space →
      Refers (mandatory - 1) next others tokens →
      Refers mandatory name (next :: others) (token :: space :: tokens)

namespace Pattern

theorem refers_of_wordItems {mandatory : Nat} {name : Bytes} {others : List SpacedName}
    {tokens : List Token} (said : tokens.map itemOf = wordItems mandatory name others) :
    Token.Refers mandatory name (others.map SpacedName.name) tokens := by
  induction others generalizing mandatory name tokens with
  | nil =>
      obtain ⟨token, rfl, own⟩ := List.map_eq_singleton_iff.mp said
      obtain ⟨place, element⟩ := element_of_itemOf_variable own
      exact .last element
  | cons next others ih =>
      obtain ⟨token, tokens, rfl, own, behind⟩ := List.map_eq_cons_iff.mp said
      obtain ⟨space, tokens, rfl, gap, later⟩ := List.map_eq_cons_iff.mp behind
      obtain ⟨place, element⟩ := element_of_itemOf_variable own
      exact .more element (element_of_itemOf_space gap) (ih later)

end Pattern

namespace Token.Refers

section

variable {mandatory : Nat} {name : Bytes} {others : List Bytes} {tokens : List Token}

theorem unseen (refers : Refers mandatory name others tokens) :
    (firstSignificant? tokens).bind opening? = none := by
  cases refers with
  | last element => simp [firstSignificant?, isSpace, opening?, element]
  | more element _ _ => simp [firstSignificant?, isSpace, opening?, element]

theorem unseen_behind {space : Token} (isGap : space.element = .space)
    (refers : Refers mandatory name others tokens) :
    (firstSignificant? (space :: tokens)).bind opening? = none := by
  have blank : space.isSpace = true := isSpace_iff.mpr isGap
  rw [firstSignificant?, List.find?_cons_of_neg (by simp [blank])]
  exact refers.unseen

theorem allOptional_eq (refers : Refers 0 name others tokens) : allOptional tokens = true := by
  generalize noneMandatory : 0 = mandatory at refers
  induction refers with
  | last element =>
      subst noneMandatory
      simp [allOptional, Token.optional, reference?, element]
  | @more _ _ _ _ _ token space tokens element isGap _ ih =>
      subst noneMandatory
      have optional : token.optional = true := by simp [Token.optional, reference?, element]
      have later := ih rfl
      unfold allOptional at later ⊢
      rw [List.all_cons, List.all_cons, optional, isSpace_iff.mpr isGap, later, Bool.or_true]
      rfl

end

section Run

variable {strict skipped : Bool} {text : Bytes} {place : Nat} {words : List Slice}
  {mandatory : Nat} {name : Bytes} {others : List Bytes} {tokens : List Token}

/-- White space behind a word is skipped.  If there is none, the text ends, and all later
variables have to be optional. -/
theorem run?_gap {space : Token} (refers : Refers mandatory name others tokens)
    (isGap : space.element = .space) (wording : Wording text place words)
    (inside : place ≤ text.length) (ended : ∀ b ∈ text[place]?, Bytes.isSpace b = true)
    {result : List Capture × Cursor}
    (behind : ∀ first, SpaceRun text place first →
      run? strict true skipped tokens (Cursor.inside text first) =
        if mandatory ≤ words.length then some result else none) :
    run? strict false skipped (space :: tokens) (Cursor.inside text place) =
      if mandatory ≤ words.length then some result else none := by
  have run : SpaceRun text place _ := spaceRun_takeWhile inside
  rw [run?_space isGap, run.skipSpace_eq, behind _ run]
  split
  · rfl
  · next needed =>
      simp only [Bool.or_eq_true, not_or, Cursor.inside_rest, List.head?_drop] at needed
      obtain ⟨⟨missing, mandatoryLater⟩, -⟩ := needed
      have last : text[place]? = none := by
        cases here : text[place]? with
        | none => rfl
        | some b => exact absurd (by simp [here, ended b here]) missing
      have positive : mandatory ≠ 0 := by
        rintro rfl
        exact mandatoryLater refers.allOptional_eq
      rw [wording.eq_nil last, List.length_nil, if_neg (by omega)]

/-- The variables take the words one by one. -/
theorem run?_eq {afterSpace : Bool} (refers : Refers mandatory name others tokens)
    (bounded : mandatory ≤ others.length + 1) (wording : Wording text place words)
    (ready : afterSpace = true →
      (Cursor.inside text place).skipSpace = Cursor.inside text place) :
    run? strict afterSpace skipped tokens (Cursor.inside text place) =
      if mandatory ≤ words.length then
        some (Pattern.assigned text words (name :: others),
          Cursor.inside text (Pattern.wordAt text words others.length).stop)
      else none := by
  induction refers generalizing afterSpace skipped place words with
  | @last mandatory _ name _ element =>
      cases wording with
      | done space =>
          rw [run?_variable_end element (space.start_eq ready), run?]
          cases mandatory with
          | zero => rfl
          | succ mandatory => rfl
      | @word _ word words space isWord later =>
          have enough : mandatory ≤ (word :: words).length := Nat.le_trans bounded (by simp)
          rw [run?_variable_word element rfl isWord (space.start_eq ready), run?, if_pos enough]
          rfl
  | @more mandatory _ name next others _ gap tokens element isGap refers ih =>
      have later : ∀ {skipped : Bool} {stop : Nat} {words : List Slice},
          Wording text stop words → stop ≤ text.length →
          (∀ b ∈ text[stop]?, Bytes.isSpace b = true) →
          run? strict false skipped (gap :: tokens) (Cursor.inside text stop) =
            if mandatory - 1 ≤ words.length then
              some (Pattern.assigned text words (next :: others),
                Cursor.inside text (Pattern.wordAt text words others.length).stop)
            else none := by
        intro skipped stop words wording inside ended
        refine run?_gap refers isGap wording inside ended fun first run => ?_
        exact ih (Nat.sub_le_of_le_add bounded) (wording.skip run) fun _ => run.again.skipSpace_eq
      cases wording with
      | done space =>
          rw [run?_variable_end element (space.start_eq ready)]
          cases mandatory with
          | zero =>
              rw [later (.done space.again) (Nat.le_refl _) (by simp),
                Pattern.assigned_nil_cons text name]
              rfl
          | succ mandatory => rfl
      | @word _ word words space isWord wording =>
          rw [run?_variable_word element (unseen_behind isGap refers) isWord (space.start_eq ready),
            later wording isWord.inside isWord.ended, Pattern.assigned_cons_cons]
          by_cases enough : mandatory ≤ words.length + 1
          · rw [if_pos (Nat.sub_le_of_le_add enough), List.length_cons, if_pos enough]
            rfl
          · rw [if_neg (by omega), List.length_cons, if_neg enough]
            rfl

end Run

end Token.Refers

namespace Pattern

section Assignment

variable {strict : Bool} {text : Bytes} {start : Nat} {words : List Slice}

theorem wordAt_stop (inside : start ≤ text.length) (wording : Wording text start words)
    (index : Nat) :
    start ≤ (wordAt text words index).stop ∧ (wordAt text words index).stop ≤ text.length := by
  cases here : words[index]? with
  | none =>
      have empty : wordAt text words index = ⟨text.length, []⟩ := by rw [wordAt, here]; rfl
      rw [empty]
      exact ⟨inside, Nat.le_refl _⟩
  | some word =>
      have known : wordAt text words index = word := by rw [wordAt, here]; rfl
      have found := (wording.wordsFrom.complete word).mp (List.mem_of_getElem? here)
      rw [known]
      exact ⟨Nat.le_trans found.behind (Nat.le_of_lt found.start_lt_stop), found.inside⟩

theorem matchAt?_of_refers {pattern : Pattern} {mandatory : Nat} {name : Bytes}
    {others : List Bytes} (refers : Token.Refers mandatory name others pattern.tokens)
    (bounded : mandatory ≤ others.length + 1) (inside : start ≤ text.length)
    (wording : Wording text start words) :
    pattern.matchAt? strict text start =
      if mandatory ≤ words.length then
        some ⟨⟨start, text.between start (wordAt text words others.length).stop⟩,
          assigned text words (name :: others), text.drop (wordAt text words others.length).stop⟩
      else none := by
  have ordered := (wordAt_stop inside wording others.length).1
  rw [matchAt?_ofNat inside, matchFrom?, refers.run?_eq bounded wording Bool.false_ne_true.elim]
  split
  · rw [Option.map_some]
    dsimp only
    rw [Cursor.inside_rest, Cursor.inside_sliceTo_drop ordered]
  · rfl

end Assignment

theorem WordPattern.exists_refers (references : WordPattern) :
    ∃ pattern, compile references.source .standard = .ok pattern ∧
      Token.Refers references.mandatory references.first
        (references.others.map SpacedName.name) pattern.tokens := by
  refine ⟨_, compile_standard _, refers_of_wordItems ?_⟩
  rw [map_itemOf_link, source,
    map_tokensFrom_render 0 (wordItems_wellFormed references.ident) wordItems_apart,
    map_filled_wordItems]

/-- References to words match if there is a word for every mandatory one.  They capture the
words in order, and nothing at the end of the text once the words are used up.  The match
ends with the last capture. -/
theorem matchAt?_assigns_words (references : WordPattern) :
    ∃ pattern, compile references.source .standard = .ok pattern ∧
      ∀ (strict : Bool) (text : Bytes) (start : Nat), start ≤ text.length →
        ∃ words, (∀ others, WordsFrom text start others ↔ others = words) ∧
          ((∃ found, pattern.matchAt? strict text start = some found) ↔
            references.mandatory ≤ words.length) ∧
          ∀ found, pattern.matchAt? strict text start = some found →
            found.start = start ∧
              found.stop = (wordAt text words references.others.length).stop ∧
              found.captures = assigned text words references.names := by
  obtain ⟨pattern, compiled, refers⟩ := references.exists_refers
  refine ⟨pattern, compiled, fun strict text start inside => ?_⟩
  obtain ⟨words, wording⟩ := exists_wording inside
  have bounded : references.mandatory ≤ (references.others.map SpacedName.name).length + 1 := by
    rw [List.length_map]
    exact references.bounded
  have only : ∀ others, WordsFrom text start others ↔ others = words := fun others =>
    ⟨fun listed => listed.unique wording.wordsFrom, fun same => same ▸ wording.wordsFrom⟩
  refine ⟨words, only, ?_⟩
  rw [matchAt?_of_refers refers bounded inside wording, List.length_map]
  obtain ⟨ordered, within⟩ := wordAt_stop inside wording references.others.length
  by_cases enough : references.mandatory ≤ words.length
  · rw [if_pos enough]
    refine ⟨⟨fun _ => enough, fun _ => ⟨_, rfl⟩⟩, ?_⟩
    rintro found ⟨⟩
    refine ⟨rfl, ?_, rfl⟩
    calc start + (text.between start _).length = start + (_ - start) := by
          rw [Bytes.length_between within]
      _ = _ := Nat.add_sub_of_le ordered
  · rw [if_neg enough]
    refine ⟨⟨fun matched => ?_, fun many => absurd many enough⟩, ?_⟩
    · obtain ⟨found, ⟨⟩⟩ := matched
    · rintro found ⟨⟩

/-- The first word is cut by the offset, and the third reference finds no word.  Where there
is none at all, the first one fails. -/
theorem matchAt?_assigns_words_missing :
    ∃ pattern, compile (bytes "$a\t $b? $?") .standard = .ok pattern ∧
      (∃ found, pattern.matchAt? true (bytes "xone  two\n") 1 = some found ∧ found.stop = 10 ∧
        found.captures = [⟨bytes "a", ⟨1, bytes "one"⟩, none⟩, ⟨bytes "b", ⟨6, bytes "two"⟩, none⟩,
          ⟨[], ⟨10, []⟩, none⟩]) ∧
      pattern.matchAt? true (bytes "xone  two\n") 9 = none := by
  let references : WordPattern :=
    { first := bytes "a"
      ident := List.all_eq_true.mp rfl
      others := [⟨bytes "\t ", bytes "b", by decide, by decide, List.all_eq_true.mp rfl⟩,
        ⟨bytes " ", [], by decide, by decide, List.all_eq_true.mp rfl⟩]
      mandatory := 1
      bounded := by decide }
  have written : references.source = bytes "$a\t $b? $?" := by decide
  obtain ⟨pattern, compiled, assigns⟩ := matchAt?_assigns_words references
  rw [written] at compiled
  have last : Wording (bytes "xone  two\n") 9 [] := .done (spaceRun_takeWhile (by decide))
  have two : IsWord (bytes "xone  two\n") ⟨6, bytes "two"⟩ :=
    ⟨by decide, ⟨bytes "\n", rfl⟩, by decide, by rintro _ ⟨⟩; rfl⟩
  have one : IsWord (bytes "xone  two\n") ⟨1, bytes "one"⟩ :=
    ⟨by decide, ⟨bytes "  two\n", rfl⟩, by decide, by rintro _ ⟨⟩; rfl⟩
  have listed : Wording (bytes "xone  two\n") 1 [⟨1, bytes "one"⟩, ⟨6, bytes "two"⟩] :=
    .word (spaceRun_takeWhile (by decide)) one (.word (spaceRun_takeWhile (by decide)) two last)
  refine ⟨pattern, compiled, ?_, ?_⟩
  · obtain ⟨words, only, succeeds, captures⟩ := assigns true (bytes "xone  two\n") 1 (by decide)
    obtain rfl := (only _).mp listed.wordsFrom
    obtain ⟨found, matched⟩ := succeeds.mpr (by decide)
    obtain ⟨-, stop, captured⟩ := captures found matched
    exact ⟨found, matched, stop, captured⟩
  · obtain ⟨words, only, succeeds, -⟩ := assigns true (bytes "xone  two\n") 9 (by decide)
    obtain rfl := (only _).mp last.wordsFrom
    cases result : pattern.matchAt? true (bytes "xone  two\n") 9 with
    | none => rfl
    | some found => exact absurd (succeeds.mp ⟨found, result⟩) (by decide)

end Pattern

end Stencil
