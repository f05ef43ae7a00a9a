import Stencil.Proofs.Cursor
import Stencil.Proofs.FilledPattern

/-!
# How tokens lie in a pattern

The tokens of a compiled pattern stand one behind the other and take all of its
text.  The cutting is canonical: a run of white space and a literal go as far as
they can, so neither is followed by another of its kind.  What a reference writes,
its name and its delimiter groups, lies inside the text of its token.

Every reader of the compiler starts at an offset of the pattern and stops at a
later one.  `Cursor.Reaches` records this, and each reader has one lemma that says
where its slices lie between the two.
-/

namespace Stencil

/-- The slice lies inside another one. -/
structure Slice.Within (inner outer : Slice) : Prop where
  lower : outer.start ≤ inner.start
  upper : inner.stop ≤ outer.stop

/-- The slice lies in a text, between two offsets. -/
structure Slice.Lies (slice : Slice) (text : Bytes) (start stop : Nat) : Prop where
  lower : start ≤ slice.start
  upper : slice.stop ≤ stop
  stands : slice.Of text

theorem Slice.Lies.widen {slice : Slice} {text : Bytes} {start stop first last : Nat}
    (lies : slice.Lies text start stop) (below : first ≤ start) (above : stop ≤ last) :
    slice.Lies text first last :=
  ⟨Nat.le_trans below lies.lower, Nat.le_trans lies.upper above, lies.stands⟩

theorem Slice.lies_between {text : Bytes} {start first last stop : Nat} (below : start ≤ first)
    (ordered : first ≤ last) (above : last ≤ stop) (inside : last ≤ text.length) :
    Slice.Lies ⟨first, text.between first last⟩ text start stop := by
  refine ⟨below, ?_, ?_⟩
  · simp only [Slice.stop, Slice.length, Bytes.length_between inside]
    omega
  · exact ⟨text.drop last, Bytes.between_append_drop ordered⟩

theorem Slice.Lies.within {slice : Slice} {text : Bytes} {start stop : Nat}
    (lies : slice.Lies text start stop) (ordered : start ≤ stop) (inside : stop ≤ text.length) :
    slice.Within ⟨start, text.between start stop⟩ := by
  refine ⟨lies.lower, ?_⟩
  have upper := lies.upper
  have ends : (Slice.mk start (text.between start stop)).stop = stop := by
    simp only [Slice.stop, Slice.length, Bytes.length_between inside]
    omega
  rwa [ends]

/-- The cursor stands at an offset of the text that is not in front of `start`. -/
structure Cursor.Reaches (cursor : Cursor) (text : Bytes) (start stop : Nat) : Prop where
  here : cursor = Cursor.inside text stop
  ordered : start ≤ stop
  inside : stop ≤ text.length

/-- The slices take the text from one offset to another, one after the other, and
none of them is empty. -/
inductive Slice.Laid (text : Bytes) : Nat → List Slice → Nat → Prop where
  | nil {place : Nat} : Laid text place [] place
  | cons {slice : Slice} {slices : List Slice} {stop : Nat} :
      slice.text ≠ [] → slice.Of text → Laid text slice.stop slices stop →
      Laid text slice.start (slice :: slices) stop

theorem Slice.Laid.behind {text part rest : Bytes} {start stop : Nat} {slices : List Slice}
    (laid : Laid text (start + part.length) slices stop) (nonempty : part ≠ [])
    (split : text.drop start = part ++ rest) : Laid text start (⟨start, part⟩ :: slices) stop := by
  have first : Slice.Of ⟨start, part⟩ text := ⟨rest, split.symm⟩
  exact .cons nonempty first laid

/-- The reference is written inside a slice of the pattern. -/
structure Reference.Inside (reference : Reference) (source : Bytes) (slice : Slice) : Prop where
  within : reference.name.Within slice
  stands : reference.name.Of source
  ident : ∀ b ∈ reference.name.text, Bytes.isIdent b = true

/-- The groups of the delimiters are written inside a slice of the pattern, and
neither delimiter is empty. -/
structure Delimiters.Inside (delimiters : Delimiters) (source : Bytes) (slice : Slice) :
    Prop where
  openerGroup : ∀ group ∈ delimiters.openerGroup, group.Within slice ∧ group.Of source
  closerGroup : ∀ group ∈ delimiters.closerGroup, group.Within slice ∧ group.Of source
  opener : delimiters.opener ≠ []
  closer : delimiters.closer ≠ []

namespace Token

/-- Tokens that are not both literals. -/
def NotBothLiteral (first second : Token) : Prop :=
  ¬ (first.element = .literal ∧ second.element = .literal)

/-- What the text of a token may be.  A sigil is looked for in the whole pattern:
one that begins in a literal might end behind it. -/
def Canonical (source : Bytes) (symbols : Symbols) (token : Token) : Prop :=
  match token.element with
  | .literal => ∀ place, token.text.start ≤ place → place < token.text.stop →
      (∀ b ∈ source[place]?, Bytes.isSpace b = false) ∧ ¬ symbols.sigil <+: source.drop place
  | .space => SpaceRun source token.text.start token.text.stop
  | .variable reference =>
      symbols.sigil <+: token.text.text ∧ reference.Inside source token.text
  | .block reference delimiters | .blocks reference delimiters =>
      symbols.sigil <+: token.text.text ∧ reference.Inside source token.text ∧
        delimiters.Inside source token.text

end Token

namespace Pattern

section Readers

variable {source : Bytes} {symbols : Symbols} {place : Nat}

/-- Where the inside of a group ends that begins at an offset. -/
def groupEnd (closer source : Bytes) (first : Nat) : Nat :=
  first + (groupInside closer (source.drop first)).1.length

/-- Where a group ends whose inside begins at an offset: behind its closer, if
there is one. -/
def groupStop (closer source : Bytes) (first : Nat) : Nat :=
  if groupEnd closer source first < source.length then
    groupEnd closer source first + closer.length
  else
    groupEnd closer source first

theorem groupInside_drop (closer source : Bytes) (first : Nat) :
    groupInside closer (source.drop first) =
      (source.between first (groupEnd closer source first),
        source.drop (groupEnd closer source first)) := by
  have split := (groupInside_append closer (source.drop first)).symm
  obtain ⟨inner, rest⟩ := Bytes.drop_eq_append split
  exact Prod.ext inner rest

theorem groupEnd_le {closer : Bytes} {first : Nat} (inside : first ≤ source.length) :
    groupEnd closer source first ≤ source.length :=
  Bytes.stop_le_of_split inside (groupInside_append closer (source.drop first)).symm

theorem groupEnd_closes {closer : Bytes} {first : Nat}
    (closed : groupEnd closer source first < source.length) :
    closer <+: source.drop (groupEnd closer source first) := by
  have ended := groupInside_rest closer (source.drop first)
  rw [groupInside_drop] at ended
  exact ended.resolve_left (Bytes.drop_ne_nil closed)

theorem groupStop_bounds {closer : Bytes} {first : Nat} (inside : first ≤ source.length) :
    groupEnd closer source first ≤ groupStop closer source first ∧
      groupStop closer source first ≤ source.length := by
  unfold groupStop
  split
  · next closed =>
      obtain ⟨rest, split⟩ := groupEnd_closes closed
      exact ⟨Nat.le_add_right _ _,
        Bytes.stop_le_of_split (Nat.le_of_lt closed) split.symm⟩
  · exact ⟨Nat.le_refl _, groupEnd_le inside⟩

theorem group?_inside (inside : place ≤ source.length)
    (opens : symbols.opener <+: source.drop place) :
    group? symbols (Cursor.inside source place) =
      some (⟨place + symbols.opener.length, source.between (place + symbols.opener.length)
          (groupEnd symbols.closer source (place + symbols.opener.length))⟩,
        Cursor.inside source
          (groupStop symbols.closer source (place + symbols.opener.length))) := by
  obtain ⟨behind, split⟩ := opens
  have within := Bytes.stop_le_of_split inside split.symm
  have found : symbols.opener.isPrefixOf (Cursor.inside source place).rest = true :=
    List.isPrefixOf_iff_prefix.mpr ⟨behind, split⟩
  rw [group?, if_pos found, Cursor.inside_advance]
  generalize place + symbols.opener.length = first at within ⊢
  have ordered : first ≤ groupEnd symbols.closer source first := Nat.le_add_right _ _
  have bound : groupEnd symbols.closer source first ≤ source.length := groupEnd_le within
  simp only [Cursor.inside_rest, groupInside_drop, Cursor.inside_moveTo_drop ordered bound,
    Cursor.inside_sliceTo_drop ordered, Cursor.inside_advance, List.isEmpty_iff,
    List.drop_eq_nil_iff, groupStop]
  split
  · next ended => rw [if_neg (by omega)]
  · next closed => rw [if_pos (by omega)]

theorem group?_eq_none (closed : ¬ symbols.opener <+: source.drop place) :
    group? symbols (Cursor.inside source place) = none := by
  rw [group?, Cursor.inside_rest, if_neg (mt List.isPrefixOf_iff_prefix.mp closed)]

theorem group?_lies (inside : place ≤ source.length) {slice : Slice} {rest : Cursor}
    (found : group? symbols (Cursor.inside source place) = some (slice, rest)) :
    ∃ stop, rest.Reaches source place stop ∧ slice.Lies source place stop := by
  by_cases opens : symbols.opener <+: source.drop place
  · rw [group?_inside inside opens] at found
    obtain ⟨rfl, rfl⟩ := Prod.mk.inj (Option.some.inj found)
    obtain ⟨behind, split⟩ := opens
    have within := Bytes.stop_le_of_split inside split.symm
    have below := Nat.le_add_right place symbols.opener.length
    generalize place + symbols.opener.length = first at within below ⊢
    have ordered : first ≤ groupEnd symbols.closer source first := Nat.le_add_right _ _
    obtain ⟨ends, bound⟩ : _ ∧ groupStop symbols.closer source first ≤ _ :=
      groupStop_bounds within
    refine ⟨_, ⟨rfl, by omega, bound⟩, ?_⟩
    exact Slice.lies_between below ordered ends (groupEnd_le within)
  · rw [group?_eq_none opens] at found
    cases found

theorem delimiters?_lies (inside : place ≤ source.length) {delimiters : Delimiters}
    {rest : Cursor}
    (found : delimiters? symbols (Cursor.inside source place) = some (delimiters, rest)) :
    ∃ stop, rest.Reaches source place stop ∧
      (∀ group ∈ delimiters.openerGroup, group.Lies source place stop) ∧
      (∀ group ∈ delimiters.closerGroup, group.Lies source place stop) := by
  unfold delimiters? at found
  obtain ⟨⟨first, afterFirst⟩, opened, pair⟩ := Option.map_eq_some_iff.mp found
  obtain ⟨middle, ⟨rfl, below, bound⟩, firstLies⟩ := group?_lies inside opened
  cases second : group? symbols (Cursor.inside source middle) with
  | none =>
      simp only [second, Prod.mk.injEq] at pair
      obtain ⟨rfl, rfl⟩ := pair
      refine ⟨middle, ⟨rfl, below, bound⟩, ?_, ?_⟩
      · rintro group ⟨⟩
        exact firstLies
      · rintro group ⟨⟩
  | some both =>
      obtain ⟨slice, afterSecond⟩ := both
      obtain ⟨stop, ⟨rfl, above, within⟩, secondLies⟩ := group?_lies bound second
      simp only [second, Prod.mk.injEq] at pair
      obtain ⟨rfl, rfl⟩ := pair
      refine ⟨stop, ⟨rfl, Nat.le_trans below above, within⟩, ?_, ?_⟩
      · rintro group ⟨⟩
        exact firstLies.widen (Nat.le_refl _) above
      · rintro group ⟨⟩
        exact secondLies.widen below (Nat.le_refl _)

/-- Where a name ends that begins at an offset. -/
def nameEnd (source : Bytes) (place : Nat) : Nat :=
  place + ((source.drop place).takeWhile Bytes.isIdent).length

/-- Where a reference ends whose name begins at an offset: behind its question
mark, if there is one. -/
def nameStop (source : Bytes) (place : Nat) : Nat :=
  if source[nameEnd source place]? = some (byte '?') then nameEnd source place + 1
  else nameEnd source place

theorem takeWhile_drop (source : Bytes) (place : Nat) :
    (source.drop place).takeWhile Bytes.isIdent =
        source.between place (nameEnd source place) ∧
      (source.drop place).dropWhile Bytes.isIdent = source.drop (nameEnd source place) :=
  Bytes.drop_eq_append (List.takeWhile_append_dropWhile (p := Bytes.isIdent)).symm

theorem nameEnd_le (inside : place ≤ source.length) : nameEnd source place ≤ source.length :=
  Bytes.stop_le_of_split inside (List.takeWhile_append_dropWhile (p := Bytes.isIdent)).symm

theorem nameStop_bounds (inside : place ≤ source.length) :
    nameEnd source place ≤ nameStop source place ∧ nameStop source place ≤ source.length := by
  have bound := nameEnd_le inside
  unfold nameStop
  split
  · next marked =>
      have within := (List.getElem?_eq_some_iff.mp marked).1
      omega
  · omega

theorem reference_inside (inside : place ≤ source.length) :
    reference (Cursor.inside source place) =
      (⟨⟨place, source.between place (nameEnd source place)⟩,
          decide (source[nameEnd source place]? = some (byte '?'))⟩,
        Cursor.inside source (nameStop source place)) := by
  have ordered : place ≤ nameEnd source place := Nat.le_add_right _ _
  have bound := nameEnd_le inside
  simp only [reference, Cursor.inside_rest, (takeWhile_drop source place).2,
    Cursor.inside_moveTo_drop ordered bound, Cursor.inside_sliceTo_drop ordered,
    Cursor.inside_advance, List.head?_drop, nameStop]
  split
  · next marked => simp [marked]
  · next unmarked => simp [unmarked]

theorem reference_lies (inside : place ≤ source.length) :
    ∃ stop, (reference (Cursor.inside source place)).2.Reaches source place stop ∧
      (reference (Cursor.inside source place)).1.name.Lies source place stop ∧
      ∀ b ∈ (reference (Cursor.inside source place)).1.name.text, Bytes.isIdent b = true := by
  have ordered : place ≤ nameEnd source place := Nat.le_add_right _ _
  obtain ⟨ends, bound⟩ := nameStop_bounds inside
  rw [reference_inside inside]
  refine ⟨nameStop source place, ⟨rfl, Nat.le_trans ordered ends, bound⟩,
    Slice.lies_between (Nat.le_refl _) ordered ends (nameEnd_le inside), ?_⟩
  intro b member
  rw [← (takeWhile_drop source place).1] at member
  exact List.all_eq_true.mp List.all_takeWhile b member

end Readers

section Tokens

variable {source : Bytes} {symbols : Symbols}

/-- What is read behind a sigil makes a token of the text from the sigil on. -/
theorem element_canonical (valid : symbols.Valid) {start place : Nat}
    (sigil : symbols.sigil <+: source.drop start) (begins : start + symbols.sigil.length = place)
    (inside : place ≤ source.length) :
    ∃ stop, (element symbols (Cursor.inside source place)).2.Reaches source place stop ∧
      Token.Canonical source symbols ⟨⟨start, source.between start stop⟩,
        (element symbols (Cursor.inside source place)).1, {}⟩ := by
  have marked : ∀ {stop : Nat}, place ≤ stop → symbols.sigil <+: source.between start stop := by
    intro stop later
    exact List.prefix_take_iff.mpr ⟨sigil, by omega⟩
  rcases element_cases symbols (Cursor.inside source place) with
    ⟨cursor, delimiters, afterGroups, groups, found, rest, shape⟩ | named
  · -- a doubled sigil moves the groups behind its second half
    obtain ⟨first, rfl, later, firstInside⟩ : ∃ first,
        cursor = Cursor.inside source first ∧ place ≤ first ∧ first ≤ source.length := by
      rcases groups with rfl | ⟨⟨behind, doubled⟩, rfl⟩
      · exact ⟨place, rfl, Nat.le_refl _, inside⟩
      · exact ⟨_, Cursor.inside_advance _ _ _, Nat.le_add_right _ _,
          Bytes.stop_le_of_split inside doubled.symm⟩
    obtain ⟨middle, ⟨rfl, below, middleInside⟩, openerLies, closerLies⟩ :=
      delimiters?_lies firstInside found
    obtain ⟨stop, ⟨here, above, bound⟩, nameLies, ident⟩ := reference_lies middleInside
    have ordered : start ≤ stop := by omega
    have reference : (reference (Cursor.inside source middle)).1.Inside source
        ⟨start, source.between start stop⟩ :=
      ⟨(nameLies.widen (by omega) (Nat.le_refl _)).within ordered bound, nameLies.stands, ident⟩
    have written : delimiters.Inside source ⟨start, source.between start stop⟩ := by
      obtain ⟨opener, closer⟩ := delimiters?_ne_nil valid found
      refine ⟨fun group member => ?_, fun group member => ?_, opener, closer⟩
      · have lies := openerLies group member
        exact ⟨(lies.widen (by omega) above).within ordered bound, lies.stands⟩
      · have lies := closerLies group member
        exact ⟨(lies.widen (by omega) above).within ordered bound, lies.stands⟩
    refine ⟨stop, ⟨rest.trans here, by omega, bound⟩, ?_⟩
    rcases shape with block | blocks
    · simp only [Token.Canonical, block]
      exact ⟨marked (by omega), reference, written⟩
    · simp only [Token.Canonical, blocks]
      exact ⟨marked (by omega), reference, written⟩
  · obtain ⟨stop, reaches, nameLies, ident⟩ := reference_lies inside
    refine ⟨stop, ?_, ?_⟩
    · rw [named]
      exact reaches
    · have later := reaches.ordered
      simp only [Token.Canonical, named]
      exact ⟨marked later, (nameLies.widen (by omega) (Nat.le_refl _)).within (by omega)
        reaches.inside, nameLies.stands, ident⟩

theorem literalRun_plain (sigil text : Bytes) {place : Nat}
    (inside : place < (literalRun sigil text).1.length) :
    (∀ b ∈ text[place]?, Bytes.isSpace b = false) ∧ ¬ sigil <+: text.drop place := by
  fun_induction literalRun sigil text generalizing place with
  | case1 => simp at inside
  | case2 => simp at inside
  | case3 b text plain run rest split ih =>
      rw [split] at ih
      cases place with
      | zero => simpa [List.isPrefixOf_iff_prefix] using plain
      | succ place => simpa using ih (by simpa using inside)

/-- A literal ends at white space, at a sigil or at the end of the pattern. -/
theorem literalRun_ends (sigil text : Bytes) {b : UInt8} {rest : Bytes}
    (more : (literalRun sigil text).2 = b :: rest) :
    Bytes.isSpace b = true ∨ sigil <+: b :: rest := by
  fun_induction literalRun sigil text with
  | case1 => cases more
  | case2 c text stops =>
      cases more
      simpa [List.isPrefixOf_iff_prefix] using stops
  | case3 c text plain run tail split ih =>
      rw [split] at ih
      exact ih more

theorem head_of_literal {offset : Nat} {text : Bytes} {token : Token}
    (first : token ∈ (tokensFrom symbols offset text).head?) (literal : token.element = .literal) :
    ∃ b rest, text = b :: rest ∧ Bytes.isSpace b = false ∧ ¬ symbols.sigil <+: text := by
  cases text with
  | nil => simp [tokensFrom] at first
  | cons b rest =>
      rw [tokensFrom] at first
      split at first
      · cases first
        cases literal
      next notBlank =>
        split at first
        · cases first
          exact absurd literal (element_ne _ _).1
        · next noSigil =>
            exact ⟨b, rest, rfl, by simpa using notBlank,
              fun begins => noSigil (List.isPrefixOf_iff_prefix.mpr begins)⟩

theorem tokensFrom_literals (symbols : Symbols) (offset : Nat) (text : Bytes) :
    (tokensFrom symbols offset text).IsChain Token.NotBothLiteral := by
  fun_induction tokensFrom symbols offset text with
  | case1 => exact .nil
  | case2 offset b tail blank run ih =>
      refine List.isChain_cons.mpr ⟨fun next first both => ?_, ih⟩
      cases both.1
  | case3 offset b tail notBlank begins read ih =>
      refine List.isChain_cons.mpr ⟨fun next first both => ?_, ih⟩
      exact (element_ne _ _).1 both.1
  | case4 offset b tail notBlank noSigil run ih =>
      refine List.isChain_cons.mpr ⟨fun next first both => ?_, ih⟩
      obtain ⟨c, rest, more, solid, plain⟩ := head_of_literal first both.2
      rcases literalRun_ends symbols.sigil tail more with space | begins
      · rw [solid] at space
        cases space
      · rw [more] at plain
        exact plain begins

/-- The tokens cut from an offset of the pattern on take the rest of it, and each
of them is canonical. -/
theorem tokensFrom_layout (valid : symbols.Valid) {offset : Nat} {text : Bytes}
    (inside : offset ≤ source.length) (here : source.drop offset = text) :
    Slice.Laid source offset ((tokensFrom symbols offset text).map Token.text) source.length ∧
      ∀ token ∈ tokensFrom symbols offset text, token.Canonical source symbols := by
  fun_induction tokensFrom symbols offset text with
  | case1 offset =>
      have whole : offset = source.length := by
        have short := List.drop_eq_nil_iff.mp here
        omega
      subst whole
      exact ⟨.nil, by simp⟩
  | case2 offset b tail blank run ih =>
      have split : source.drop offset = run ++ tail.dropWhile Bytes.isSpace := by
        rw [here, List.cons_append, List.takeWhile_append_dropWhile]
      obtain ⟨-, rest⟩ := Bytes.drop_eq_append split
      have spaces := spaceRun_takeWhile inside
      rw [here, List.takeWhile_cons_of_pos blank] at spaces
      obtain ⟨laid, canonical⟩ := ih (Bytes.stop_le_of_split inside split) rest.symm
      exact ⟨laid.behind (List.cons_ne_nil _ _) split,
        List.forall_mem_cons.mpr ⟨spaces, canonical⟩⟩
  | case3 offset b tail notBlank begins read ih =>
      have split : source.drop offset = symbols.sigil ++ tail.drop (symbols.sigil.length - 1) := by
        rw [here, cons_eq_append_drop valid.sigil begins]
      obtain ⟨-, rest⟩ := Bytes.drop_eq_append split
      have within := Bytes.stop_le_of_split inside split
      obtain ⟨stop, reaches, canonical⟩ := element_canonical valid ⟨_, split.symm⟩ rfl within
      have same : read = element symbols (Cursor.inside source (offset + symbols.sigil.length)) := by
        simp only [read, rest]
        rfl
      rw [← same] at reaches canonical
      obtain ⟨behind, ordered, bound⟩ := reaches
      have positive := List.length_pos_iff.mpr valid.sigil
      have own : Cursor.sliceTo ⟨offset, b :: tail⟩ read.2.rest =
          ⟨offset, source.between offset stop⟩ := by
        rw [behind, ← here]
        exact Cursor.inside_sliceTo_drop (by omega)
      have taken : (source.between offset stop).length = stop - offset :=
        Bytes.length_between bound
      rw [behind] at ih
      obtain ⟨laid, later⟩ := ih bound rfl
      rw [own, behind]
      refine ⟨?_, List.forall_mem_cons.mpr ⟨canonical, later⟩⟩
      apply Slice.Laid.behind
      · rw [taken, Nat.add_sub_of_le (by omega)]
        exact laid
      · apply List.ne_nil_of_length_pos
        omega
      · exact (Bytes.between_append_drop (by omega)).symm
  | case4 offset b tail notBlank noSigil run ih =>
      have split : source.drop offset = run ++ (literalRun symbols.sigil tail).2 := by
        rw [here, List.cons_append, literalRun_append]
      obtain ⟨-, rest⟩ := Bytes.drop_eq_append split
      obtain ⟨laid, canonical⟩ := ih (Bytes.stop_le_of_split inside split) rest.symm
      refine ⟨laid.behind (List.cons_ne_nil _ _) split,
        List.forall_mem_cons.mpr ⟨?_, canonical⟩⟩
      have whole : (literalRun symbols.sigil (b :: tail)).1 = run := by
        simp [literalRun, notBlank, noSigil, run]
      intro place atLeast before
      obtain ⟨i, rfl⟩ := Nat.exists_eq_add_of_le atLeast
      have early : i < (literalRun symbols.sigil (b :: tail)).1.length := by
        rw [whole]
        exact Nat.lt_of_add_lt_add_left before
      have plain := literalRun_plain symbols.sigil (b :: tail) early
      rwa [← here, List.getElem?_drop, List.drop_drop] at plain

/-- The tokens are the canonical cutting of a pattern. -/
structure Cutting (source : Bytes) (symbols : Symbols) (tokens : List Token) : Prop where
  laid : Slice.Laid source 0 (tokens.map Token.text) source.length
  spaces : tokens.IsChain Token.NotBothSpace
  literals : tokens.IsChain Token.NotBothLiteral
  canonical : ∀ token ∈ tokens, token.Canonical source symbols

theorem cutting_of_compile {pattern : Pattern}
    (compiled : compile source symbols = .ok pattern) :
    Cutting source symbols pattern.tokens := by
  have spaces := chain_of_compile compiled
  obtain ⟨valid, rfl⟩ := compile_eq_ok_iff.mp compiled
  obtain ⟨laid, canonical⟩ := tokensFrom_layout valid (Nat.zero_le _) (List.drop_zero (l := source))
  refine ⟨?_, spaces, ?_, ?_⟩
  · have texts := congrArg (List.map Prod.fst)
      (Token.map_linkFrom 0 (tokensFrom symbols 0 source))
    simp only [List.map_map] at texts
    exact texts ▸ laid
  · exact Token.isChain_link (fun first second => ¬ (first.2 = .literal ∧ second.2 = .literal))
      (tokensFrom_literals symbols 0 source)
  · intro token member
    obtain ⟨original, originalMember, text, element⟩ := Token.exists_of_mem_link member
    simpa only [Token.Canonical, text, element] using canonical original originalMember

theorem compile_fails_iff :
    (∃ fault, compile source symbols = .error fault) ↔
      symbols.sigil = [] ∨ symbols.opener = [] ∨ symbols.closer = [] := by
  have fails : (∃ fault, compile source symbols = .error fault) ↔ ¬ symbols.Valid := by
    rw [← Symbols.fault?_eq_none_iff, compile]
    cases symbols.fault? with
    | none => simp
    | some fault => simp
  rw [fails]
  constructor
  · intro invalid
    by_contra marked
    simp only [not_or] at marked
    exact invalid ⟨marked.1, marked.2.1, marked.2.2⟩
  · rintro (sigil | opener | closer) valid
    · exact valid.sigil sigil
    · exact valid.opener opener
    · exact valid.closer closer

end Tokens

/-- Compiling fails exactly when a mark is empty.  Otherwise it cuts the pattern into
nonempty tokens that follow each other without a gap from its beginning to its end,
each as long as its kind allows. -/
theorem compile_partitions (source : Bytes) (symbols : Symbols) :
    ((∃ fault, compile source symbols = .error fault) ↔
        symbols.sigil = [] ∨ symbols.opener = [] ∨ symbols.closer = []) ∧
      (symbols.Valid →
        ∃ pattern, compile source symbols = .ok pattern ∧
          Cutting source symbols pattern.tokens) := by
  refine ⟨compile_fails_iff, fun valid => ?_⟩
  obtain ⟨pattern, compiled⟩ : ∃ pattern, compile source symbols = .ok pattern :=
    ⟨_, compile_eq_ok_iff.mpr ⟨valid, rfl⟩⟩
  exact ⟨pattern, compiled, cutting_of_compile compiled⟩

/-- The sigil is a doubled opener and the last group is not closed. -/
theorem compile_partitions_overlapping :
    Symbols.Valid ⟨bytes "<<", bytes "<", bytes ">"⟩ ∧
      ∃ pattern, compile (bytes "a <<<<<x?>b <<<y><") ⟨bytes "<<", bytes "<", bytes ">"⟩ =
          .ok pattern ∧
        Cutting (bytes "a <<<<<x?>b <<<y><") ⟨bytes "<<", bytes "<", bytes ">"⟩
          pattern.tokens := by
  have valid : Symbols.Valid ⟨bytes "<<", bytes "<", bytes ">"⟩ :=
    Symbols.fault?_eq_none_iff.mp (by decide)
  exact ⟨valid, (compile_partitions _ _).2 valid⟩

end Pattern

end Stencil
