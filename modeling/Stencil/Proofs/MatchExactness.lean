import Stencil.Proofs.Reading
import Stencil.Proofs.Tokens

/-!
# Matching finds exactly the readings

A pattern matches at a place of a text exactly when the text has a reading by
its tokens from there on, and the match is the one the reading describes.

Every reader of the matcher is first compared with the stretch it stands for.
One step of the matcher is then a share that fits, and the run over all tokens
is an induction that carries the shares read so far.
-/

namespace Stencil

theorem nextBegins_iff {text : Bytes} {later : List Token} {place : Nat} :
    NextBegins text later place ↔
      ((Token.firstSignificant? later).bind Token.opening?).any
        (·.isPrefixOf (text.drop place)) = true := by
  constructor
  · rintro ⟨spaces, next, rest, opening, rfl, blank, significant, begins, stands⟩
    have found : Token.firstSignificant? (spaces ++ next :: rest) = some next := by
      apply List.find?_eq_some_iff_append.mpr
      refine ⟨by simp [significant], spaces, rest, rfl, ?_⟩
      intro token member
      simp [blank token member]
    simpa [found, begins] using stands
  · intro stands
    rw [Option.any_eq_true] at stands
    obtain ⟨opening, bound, isPrefix⟩ := stands
    obtain ⟨next, found, begins⟩ := Option.bind_eq_some_iff.mp bound
    obtain ⟨significant, spaces, rest, rfl, blank⟩ := List.find?_eq_some_iff_append.mp found
    refine ⟨spaces, next, rest, opening, rfl, ?_, by simpa using significant, begins,
      List.isPrefixOf_iff_prefix.mp isPrefix⟩
    intro token member
    simpa using blank token member

theorem Word.empty {text : Bytes} {later : List Token} {place : Nat}
    (inside : place ≤ text.length)
    (ended : place = text.length ∨ (∃ b ∈ text[place]?, Bytes.isSpace b = true) ∨
      NextBegins text later place) :
    Word text later place place where
  ordered := Nat.le_refl _
  inside := inside
  solid := by
    intro other atLeast below
    omega
  own := by
    intro other atLeast below
    omega
  ended := ended

theorem Word.extend {text : Bytes} {later : List Token} {start stop : Nat}
    (solid : ∀ b ∈ text[start]?, Bytes.isSpace b = false)
    (own : ¬ NextBegins text later start) (word : Word text later (start + 1) stop) :
    Word text later start stop where
  ordered := Nat.le_of_succ_le word.ordered
  inside := word.inside
  solid := by
    intro place atLeast below
    rcases Nat.eq_or_lt_of_le atLeast with rfl | beyond
    · exact solid
    · exact word.solid place beyond below
  own := by
    intro place atLeast below
    rcases Nat.eq_or_lt_of_le atLeast with rfl | beyond
    · exact own
    · exact word.own place beyond below
  ended := word.ended

theorem word_wordLength {text : Bytes} {later : List Token} {start : Nat}
    (inside : start ≤ text.length) :
    Word text later start (start + Token.wordLength
      ((Token.firstSignificant? later).bind Token.opening?) (text.drop start)) := by
  generalize remaining : text.drop start = rest
  induction rest generalizing start with
  | nil =>
      have short := List.drop_eq_nil_iff.mp remaining
      exact Word.empty inside (.inl (by omega))
  | cons b rest ih =>
      obtain ⟨byte, next, bound⟩ := drop_eq_cons remaining
      simp only [Token.wordLength]
      split
      · next stops =>
          apply Word.empty inside
          rw [Bool.or_eq_true] at stops
          rcases stops with blank | begins
          · exact .inr (.inl ⟨b, byte, blank⟩)
          · rw [← remaining] at begins
            exact .inr (.inr (nextBegins_iff.mpr begins))
      · next goesOn =>
          rw [Bool.or_eq_true, not_or, ← remaining] at goesOn
          have word := ih bound next
          rw [Nat.succ_add] at word
          apply word.extend
          · intro other found
            rw [byte] at found
            cases found
            simpa using goesOn.1
          · rw [nextBegins_iff]
            exact goesOn.2

theorem Word.unique {text : Bytes} {later : List Token} {start first second : Nat}
    (one : Word text later start first) (other : Word text later start second) :
    first = second := by
  -- a word cannot end inside another one that begins at the same place
  have notBelow : ∀ {stop stop' : Nat}, Word text later start stop →
      Word text later start stop' → ¬ stop < stop' := by
    intro stop stop' short long below
    rcases short.ended with atEnd | ⟨b, found, blank⟩ | begins
    · have inside := long.inside
      omega
    · rw [long.solid stop short.ordered below b found] at blank
      cases blank
    · exact long.own stop short.ordered below begins
  have left := notBelow one other
  have right := notBelow other one
  omega

theorem exists_blockAt {text : Bytes} {delimiters : Delimiters} {start : Nat} {block : Block}
    (inside : start ≤ text.length)
    (read : Block.read? delimiters.opener delimiters.closer (text.drop start) = some block) :
    ∃ stop, BlockAt text delimiters start block stop ∧
      (Cursor.inside text start).moveTo block.rest = Cursor.inside text stop := by
  have split := Block.read?_append read
  rw [← List.append_assoc, ← List.append_assoc] at split
  exact ⟨_, ⟨read, Nat.le_add_right _ _, Bytes.stop_le_of_split inside split,
    (Bytes.drop_eq_append split).2⟩, Cursor.inside_moveTo split⟩

theorem BlockAt.moveTo_eq {text : Bytes} {delimiters : Delimiters} {start stop : Nat}
    {block : Block} (found : BlockAt text delimiters start block stop) :
    (Cursor.inside text start).moveTo block.rest = Cursor.inside text stop := by
  have split : text.drop start = text.between start stop ++ block.rest := by
    rw [found.rest, Bytes.between_append_drop found.ordered]
  have ordered := found.ordered
  rw [Cursor.inside_moveTo split, Bytes.length_between found.inside, Nat.add_sub_of_le ordered]

theorem BlockAt.opener_prefix {text : Bytes} {delimiters : Delimiters} {start stop : Nat}
    {block : Block} (found : BlockAt text delimiters start block stop) :
    delimiters.opener <+: text.drop start :=
  ⟨_, (Block.read?_append found.read).symm⟩

theorem BlockAt.lt {text : Bytes} {delimiters : Delimiters} {start stop : Nat}
    {block : Block} (found : BlockAt text delimiters start block stop) : start < stop := by
  have shorter := Block.read?_length found.read
  rw [found.rest] at shorter
  simp only [List.length_drop] at shorter
  have inside := found.inside
  omega

/-- The run of blocks behind a block that was read. -/
theorem blockRun_of_blockAt {strict : Bool} {text : Bytes} {delimiters : Delimiters}
    {start stop : Nat} {block : Block} (found : BlockAt text delimiters start block stop) :
    Token.blockRun strict delimiters.opener delimiters.closer (Cursor.inside text start) =
      if block.closed then
        if delimiters.opener.isPrefixOf (Cursor.inside text stop).skipSpace.rest then
          (Token.blockRun strict delimiters.opener delimiters.closer
            (Cursor.inside text stop).skipSpace).map
              fun (inners, last) => (delimiters.inner start block :: inners, last)
        else
          some ([delimiters.inner start block], Cursor.inside text stop)
      else if strict then
        none
      else
        some ([delimiters.inner start block], Cursor.inside text stop) := by
  rw [Token.blockRun_some found.read, found.moveTo_eq]
  rfl

theorem blockRun_of_absent {strict : Bool} {text : Bytes} {delimiters : Delimiters}
    {start : Nat}
    (absent : Block.read? delimiters.opener delimiters.closer (text.drop start) = none) :
    Token.blockRun strict delimiters.opener delimiters.closer (Cursor.inside text start) =
      some ([], Cursor.inside text start) :=
  Token.blockRun_none absent

theorem BlockRun.blockRun_eq {strict : Bool} {text : Bytes} {delimiters : Delimiters}
    {start stop : Nat} {inners : List Slice}
    (run : BlockRun strict text delimiters start inners stop) :
    Token.blockRun strict delimiters.opener delimiters.closer (Cursor.inside text start) =
      some (inners, Cursor.inside text stop) := by
  induction run with
  | @last start stop block found closed noMore =>
      rw [blockRun_of_blockAt found]
      cases finished : block.closed with
      | false =>
          cases strict with
          | false => rfl
          | true => rw [closed rfl] at finished; cases finished
      | true =>
          have run : SpaceRun text stop _ := spaceRun_takeWhile found.inside
          have absent := noMore finished _ run
          rw [run.skipSpace_eq, if_pos rfl, if_neg]
          rw [List.isPrefixOf_iff_prefix]
          exact absent
  | @more start behind next stop block inners found finished space opens _ ih =>
      rw [blockRun_of_blockAt found, if_pos finished, space.skipSpace_eq, if_pos, ih]
      · rfl
      · exact List.isPrefixOf_iff_prefix.mpr opens

/-- Where a block begins, what the matcher reads is a run of blocks. -/
theorem blockRun_of_some {strict : Bool} {text : Bytes} {delimiters : Delimiters}
    {start : Nat} {inners : List Slice} {last : Cursor} (inside : start ≤ text.length)
    (openerNonempty : delimiters.opener ≠ []) (closerNonempty : delimiters.closer ≠ [])
    (opens : delimiters.opener <+: text.drop start)
    (read : Token.blockRun strict delimiters.opener delimiters.closer
      (Cursor.inside text start) = some (inners, last)) :
    ∃ stop, last = Cursor.inside text stop ∧
      BlockRun strict text delimiters start inners stop := by
  -- every further block begins later in the text
  induction remaining : text.length - start using Nat.strongRecOn
    generalizing start inners with
  | _ remaining ih =>
      obtain ⟨block, found⟩ := Option.ne_none_iff_exists'.mp
        fun absent => (Block.read?_eq_none_iff openerNonempty closerNonempty).mp absent opens
      obtain ⟨stop, found, _⟩ := exists_blockAt inside found
      rw [blockRun_of_blockAt found] at read
      cases finished : block.closed with
      | false =>
          rw [finished] at read
          cases strict with
          | true => cases read
          | false =>
              cases read
              refine ⟨stop, rfl, .last found (fun strict => by cases strict) ?_⟩
              intro closed
              rw [finished] at closed
              cases closed
      | true =>
          have space : SpaceRun text stop _ := spaceRun_takeWhile found.inside
          rw [finished, if_pos rfl, space.skipSpace_eq] at read
          split at read
          · next further =>
              obtain ⟨⟨inners', last'⟩, rest, pair⟩ := Option.map_eq_some_iff.mp read
              cases pair
              have opensAgain := List.isPrefixOf_iff_prefix.mp further
              have beyond := found.lt
              have within := space.ordered
              have bound := space.inside
              obtain ⟨stop', same, run⟩ := ih _ (by omega) bound opensAgain rest rfl
              exact ⟨stop', same, .more found finished space opensAgain run⟩
          · next noFurther =>
              cases read
              refine ⟨stop, rfl, .last found (fun _ => finished) ?_⟩
              intro _ next other
              rw [List.isPrefixOf_iff_prefix] at noFurther
              rw [← other.stop_eq]
              exact noFurther

/-- A list cut at one of its elements either is cut at its last element or has
its last element behind the cut. -/
theorem concat_eq_append_cons {α : Type} {init before after : List α} {last middle : α}
    (same : init ++ [last] = before ++ middle :: after) :
    (init = before ∧ last = middle ∧ after = []) ∨
      ∃ inner, after = inner ++ [last] ∧ init = before ++ middle :: inner := by
  rcases List.eq_nil_or_concat after with rfl | ⟨inner, final, rfl⟩
  · obtain ⟨sameInit, sameLast⟩ := List.append_inj' same rfl
    exact .inl ⟨sameInit, by simpa using sameLast, rfl⟩
  · rw [List.concat_eq_append, ← List.cons_append, ← List.append_assoc] at same
    obtain ⟨sameInit, sameLast⟩ := List.append_inj' same rfl
    rw [List.cons.injEq] at sameLast
    exact .inr ⟨inner, by rw [List.concat_eq_append, sameLast.1], sameInit⟩

namespace Share

theorem endsInSpace_concat (earlier : List Share) (share : Share) :
    endsInSpace (earlier ++ [share]) = share.token.isSpace := by
  simp [endsInSpace]

theorem afterNothing_concat_space {text : Bytes} {earlier : List Share} {share : Share}
    (blank : share.token.isSpace = true) :
    AfterNothing text (earlier ++ [share]) ↔ AfterNothing text earlier := by
  constructor
  · rintro ⟨before, last, spaces, same, blanks, significant, nothing⟩
    rcases concat_eq_append_cons same with ⟨_, rfl, _⟩ | ⟨inner, rfl, rfl⟩
    · rw [significant] at blank
      cases blank
    · refine ⟨before, last, inner, rfl, ?_, significant, nothing⟩
      intro other member
      exact blanks other (List.mem_append_left _ member)
  · rintro ⟨before, last, spaces, rfl, blanks, significant, nothing⟩
    refine ⟨before, last, spaces ++ [share], by simp, ?_, significant, nothing⟩
    intro other member
    rcases List.mem_append.mp member with inSpaces | isShare
    · exact blanks other inSpaces
    · rw [List.mem_singleton.mp isShare]
      exact blank

theorem afterNothing_concat_significant {text : Bytes} {earlier : List Share} {share : Share}
    (significant : share.token.isSpace = false) :
    AfterNothing text (earlier ++ [share]) ↔ share.CapturedNothing text := by
  constructor
  · rintro ⟨before, last, spaces, same, blanks, _, nothing⟩
    rcases concat_eq_append_cons same with ⟨_, rfl, _⟩ | ⟨inner, rfl, _⟩
    · exact nothing
    · rw [blanks share (by simp)] at significant
      cases significant
  · intro nothing
    exact ⟨earlier, share, [], rfl, by simp, significant, nothing⟩

end Share

/-- A step of the matcher as a share that ends at `stop`. -/
structure StepFits (strict : Bool) (text : Bytes) (earlier : List Share) (token : Token)
    (later : List Token) (start : Nat) (step : Step) (stop : Nat) : Prop where
  ordered : start ≤ stop
  inside : stop ≤ text.length
  cursor : step.cursor = Cursor.inside text stop
  fits : Share.Fits strict text earlier ⟨token, start, stop, step.capture⟩ later
  skipped : step.skipped = true ↔
    Share.AfterNothing text (earlier ++ [⟨token, start, stop, step.capture⟩])

section Step

variable {strict skipped : Bool} {text : Bytes} {earlier : List Share} {token : Token}
  {later : List Token} {start : Nat} {step : Step}

theorem stepFits_literal (literal : token.element = .literal) (inside : start ≤ text.length)
    (stepped : Token.step? strict (Share.endsInSpace earlier) skipped later token
      (Cursor.inside text start) = some step) :
    ∃ stop, StepFits strict text earlier token later start step stop := by
  simp only [Token.step?, literal] at stepped
  split at stepped
  · next begins =>
      cases stepped
      obtain ⟨rest, split⟩ := List.isPrefixOf_iff_prefix.mp begins
      have whole : text.drop start = token.text.text ++ rest := split.symm
      refine ⟨start + token.text.length, Nat.le_add_right _ _,
        Bytes.stop_le_of_split inside whole, Cursor.inside_advance _ _ _, ?_, ?_⟩
      · simp only [Share.Fits, literal, and_true]
        exact (Bytes.drop_eq_append whole).1.symm
      · rw [Share.afterNothing_concat_significant (by simp [Token.isSpace, literal])]
        simp [Share.CapturedNothing, literal]
  · cases stepped

theorem allOptional_iff {tokens : List Token} :
    Token.allOptional tokens = true ↔
      ∀ token ∈ tokens, token.isSpace = false → token.optional = true := by
  simp only [Token.allOptional, List.all_eq_true, Bool.or_eq_true]
  constructor
  · intro each token member significant
    rcases each token member with blank | optional
    · rw [significant] at blank
      cases blank
    · exact optional
  · intro each token member
    cases blank : token.isSpace with
    | true => exact .inl rfl
    | false => exact .inr (each token member blank)

theorem stepFits_space (space : token.element = .space) (inside : start ≤ text.length)
    (recorded : skipped = true ↔ Share.AfterNothing text earlier)
    (stepped : Token.step? strict (Share.endsInSpace earlier) skipped later token
      (Cursor.inside text start) = some step) :
    ∃ stop, StepFits strict text earlier token later start step stop := by
  have run := spaceRun_takeWhile inside
  have record : ∀ stop capture,
      (skipped = true ↔ Share.AfterNothing text (earlier ++ [⟨token, start, stop, capture⟩])) := by
    intro stop capture
    rw [Share.afterNothing_concat_space (by simp [Token.isSpace, space])]
    exact recorded
  simp only [Token.step?, space] at stepped
  split at stepped
  · next blank =>
      cases stepped
      refine ⟨_, run.ordered, run.inside, run.skipSpace_eq, ?_, record _ _⟩
      simp only [Share.Fits, space, and_true]
      refine ⟨run, ?_⟩
      intro empty
      -- the run holds the white space the step saw
      obtain ⟨b, first, isBlank⟩ := (Option.any_eq_true _ _).mp blank
      have next : b ∈ text[start]? := by
        rw [← List.head?_drop]
        exact first
      have solid := run.maximal b (empty ▸ next)
      rw [isBlank] at solid
      cases solid
  · next notBlank =>
      split at stepped
      · next allowed =>
          cases stepped
          have empty : SpaceRun text start start := by
            refine ⟨Nat.le_refl _, inside, by simp, ?_⟩
            intro b next
            rw [← List.head?_drop] at next
            cases blank : Bytes.isSpace b with
            | false => rfl
            | true => exact (notBlank ((Option.any_eq_true _ _).mpr ⟨b, next, blank⟩)).elim
          refine ⟨start, Nat.le_refl _, inside, rfl, ?_, record _ _⟩
          simp only [Share.Fits, space, and_true]
          refine ⟨empty, fun _ => ?_⟩
          rw [Bool.or_eq_true] at allowed
          exact allowed.imp allOptional_iff.mp recorded.mp
      · cases stepped

theorem stepFits_variable {reference : Reference}
    (isVariable : token.element = .variable reference) (inside : start ≤ text.length)
    (stepped : Token.step? strict (Share.endsInSpace earlier) skipped later token
      (Cursor.inside text start) = some step) :
    ∃ stop, StepFits strict text earlier token later start step stop := by
  -- the word begins behind the white space that no token of its own took
  obtain ⟨first, leading, ordered, firstInside, begins⟩ : ∃ first,
      (if Share.endsInSpace earlier then first = start else SpaceRun text start first) ∧
        start ≤ first ∧ first ≤ text.length ∧
        (if Share.endsInSpace earlier then Cursor.inside text start
          else (Cursor.inside text start).skipSpace) = Cursor.inside text first := by
    cases Share.endsInSpace earlier with
    | true => exact ⟨start, rfl, Nat.le_refl _, inside, rfl⟩
    | false =>
        have run := spaceRun_takeWhile inside
        exact ⟨_, run, run.ordered, run.inside, run.skipSpace_eq⟩
  have word : Word text later first _ := word_wordLength firstInside
  simp only [Token.step?, isVariable, begins] at stepped
  rw [Cursor.inside_rest] at stepped
  generalize length : Token.wordLength _ (text.drop first) = n at stepped word
  split at stepped
  · cases stepped
  · next allowed =>
      cases stepped
      have taken : (text.drop first).take n = text.between first (first + n) := by
        rw [Bytes.between, Nat.add_sub_cancel_left]
      refine ⟨first + n, Nat.le_trans ordered word.ordered, word.inside,
        Cursor.inside_advance _ _ _, ?_, ?_⟩
      · simp only [Share.Fits, isVariable]
        refine ⟨first, leading, word, ?_, by rw [taken]; rfl⟩
        intro empty
        have zero : n = 0 := by omega
        simpa [zero] using allowed
      · rw [Share.afterNothing_concat_significant (by simp [Token.isSpace, isVariable])]
        have width : (text.between first (first + n)).length = _ :=
          Bytes.length_between word.inside
        simp only [Share.CapturedNothing, isVariable, Token.optional, Token.reference?,
          Option.any_some, Option.mem_def, Option.some.injEq, exists_eq_left', taken,
          beq_iff_eq]
        constructor
        · rintro rfl
          exact ⟨by simpa using allowed, by simp⟩
        · rintro ⟨_, empty⟩
          rw [empty, List.length_nil] at width
          omega

theorem stepFits_absent {reference : Reference} {delimiters : Delimiters}
    (shape : token.element = .block reference delimiters ∨
      token.element = .blocks reference delimiters)
    (inside : start ≤ text.length) (absent : ¬ delimiters.opener <+: text.drop start)
    (optional : reference.optional = true) :
    StepFits strict text earlier token later start
      ⟨Cursor.inside text start,
        some { name := reference.name.text, value := ⟨start, []⟩ }, true⟩ start := by
  refine ⟨Nat.le_refl _, inside, rfl, ?_, ?_⟩
  · rcases shape with block | blocks
    · simp only [Share.Fits, block]
      exact .inr ⟨optional, absent, rfl, rfl⟩
    · simp only [Share.Fits, blocks]
      exact .inr ⟨optional, absent, rfl, rfl⟩
  · rcases shape with block | blocks
    · rw [Share.afterNothing_concat_significant (by simp [Token.isSpace, block])]
      simp [Share.CapturedNothing, block, Token.optional, Token.reference?, optional, absent]
    · rw [Share.afterNothing_concat_significant (by simp [Token.isSpace, blocks])]
      simp [Share.CapturedNothing, blocks, Token.optional, Token.reference?, optional, absent]

theorem stepFits_block {reference : Reference} {delimiters : Delimiters}
    (isBlock : token.element = .block reference delimiters) (inside : start ≤ text.length)
    (openerNonempty : delimiters.opener ≠ []) (closerNonempty : delimiters.closer ≠ [])
    (stepped : Token.step? strict (Share.endsInSpace earlier) skipped later token
      (Cursor.inside text start) = some step) :
    ∃ stop, StepFits strict text earlier token later start step stop := by
  simp only [Token.step?, isBlock] at stepped
  split at stepped
  · next unread =>
      have absent := (Block.read?_eq_none_iff openerNonempty closerNonempty).mp unread
      split at stepped
      · next optional =>
          cases stepped
          exact ⟨start, stepFits_absent (.inl isBlock) inside absent optional⟩
      · cases stepped
  · next block read =>
      obtain ⟨stop, found, moved⟩ := exists_blockAt inside read
      split at stepped
      · next allowed =>
          cases stepped
          refine ⟨stop, found.ordered, found.inside, moved, ?_, ?_⟩
          · simp only [Share.Fits, isBlock]
            refine .inl ⟨block, found, ?_, rfl⟩
            intro isStrict
            simpa [isStrict] using allowed
          · rw [Share.afterNothing_concat_significant (by simp [Token.isSpace, isBlock])]
            simp [Share.CapturedNothing, isBlock, found.opener_prefix]
      · cases stepped

theorem BlockRun.opener_prefix {delimiters : Delimiters} {inners : List Slice} {stop : Nat}
    (run : BlockRun strict text delimiters start inners stop) :
    delimiters.opener <+: text.drop start := by
  cases run with
  | last found => exact found.opener_prefix
  | more found => exact found.opener_prefix

theorem BlockRun.ordered {delimiters : Delimiters} {inners : List Slice} {stop : Nat}
    (run : BlockRun strict text delimiters start inners stop) :
    start ≤ stop ∧ stop ≤ text.length := by
  induction run with
  | last found => exact ⟨found.ordered, found.inside⟩
  | more found _ space _ _ ih =>
      exact ⟨Nat.le_trans found.ordered (Nat.le_trans space.ordered ih.1), ih.2⟩

theorem BlockRun.ne_nil {delimiters : Delimiters} {inners : List Slice} {stop : Nat}
    (run : BlockRun strict text delimiters start inners stop) : inners ≠ [] := by
  cases run <;> exact List.cons_ne_nil _ _

theorem stepFits_blocks {reference : Reference} {delimiters : Delimiters}
    (isBlocks : token.element = .blocks reference delimiters) (inside : start ≤ text.length)
    (openerNonempty : delimiters.opener ≠ []) (closerNonempty : delimiters.closer ≠ [])
    (stepped : Token.step? strict (Share.endsInSpace earlier) skipped later token
      (Cursor.inside text start) = some step) :
    ∃ stop, StepFits strict text earlier token later start step stop := by
  simp only [Token.step?, isBlocks] at stepped
  by_cases opens : delimiters.opener <+: text.drop start
  · cases read : Token.blockRun strict delimiters.opener delimiters.closer
      (Cursor.inside text start) with
    | none =>
        rw [read] at stepped
        cases stepped
    | some result =>
        obtain ⟨inners, last⟩ := result
        obtain ⟨stop, rfl, run⟩ :=
          blockRun_of_some inside openerNonempty closerNonempty opens read
        obtain ⟨ordered, bound⟩ := run.ordered
        rw [read] at stepped
        have split : text.drop start = text.between start stop ++ text.drop stop :=
          (Bytes.between_append_drop ordered).symm
        cases inners with
        | nil => exact (run.ne_nil rfl).elim
        | cons inner inners =>
            cases stepped
            refine ⟨stop, ordered, bound, rfl, ?_, ?_⟩
            · simp only [Share.Fits, isBlocks]
              refine .inl ⟨inner :: inners, run, ?_⟩
              rw [Cursor.inside_rest,
                Cursor.inside_sliceTo split]
            · rw [Share.afterNothing_concat_significant (by simp [Token.isSpace, isBlocks])]
              simp [Share.CapturedNothing, isBlocks, opens]
  · have unread := (Block.read?_eq_none_iff openerNonempty closerNonempty).mpr opens
    rw [blockRun_of_absent unread] at stepped
    split at stepped
    · next same => cases same
    · split at stepped
      · next optional =>
          cases stepped
          exact ⟨start, stepFits_absent (.inr isBlocks) inside opens optional⟩
      · cases stepped
    · next nonempty same =>
        cases same
        exact (nonempty rfl).elim

/-- Every step of the matcher is a share that fits. -/
theorem stepFits_of_step? (wellFormed : token.WellFormed) (inside : start ≤ text.length)
    (recorded : skipped = true ↔ Share.AfterNothing text earlier)
    (stepped : Token.step? strict (Share.endsInSpace earlier) skipped later token
      (Cursor.inside text start) = some step) :
    ∃ stop, StepFits strict text earlier token later start step stop := by
  unfold Token.WellFormed at wellFormed
  split at wellFormed
  · next literal => exact stepFits_literal literal inside stepped
  · next space => exact stepFits_space space inside recorded stepped
  · next isVariable => exact stepFits_variable isVariable inside stepped
  · next isBlock => exact stepFits_block isBlock inside wellFormed.1 wellFormed.2 stepped
  · next isBlocks => exact stepFits_blocks isBlocks inside wellFormed.1 wellFormed.2 stepped

variable {stop : Nat} {capture : Option Capture}

theorem step?_of_fits_space (space : token.element = .space)
    (recorded : skipped = true ↔ Share.AfterNothing text earlier)
    (fits : Share.Fits strict text earlier ⟨token, start, stop, capture⟩ later) :
    ∃ skipped', Token.step? strict (Share.endsInSpace earlier) skipped later token
      (Cursor.inside text start) = some ⟨Cursor.inside text stop, capture, skipped'⟩ := by
  simp only [Share.Fits, space] at fits
  obtain ⟨run, allowed, rfl⟩ := fits
  refine ⟨skipped, ?_⟩
  simp only [Token.step?, space]
  have first : (Cursor.inside text start).rest.head? = text[start]? := List.head?_drop
  rw [first]
  by_cases empty : start = stop
  · subst empty
    rw [if_neg, if_pos]
    · rw [Bool.or_eq_true]
      exact (allowed rfl).imp allOptional_iff.mpr recorded.mpr
    · rw [Option.any_eq_true]
      rintro ⟨b, next, blank⟩
      rw [run.maximal b next] at blank
      cases blank
  · rw [if_pos, run.skipSpace_eq]
    have ordered := run.ordered
    have bound := run.inside
    rw [Option.any_eq_true]
    refine ⟨text[start], List.getElem?_eq_getElem (by omega), run.space _ ?_⟩
    rw [Bytes.between, List.drop_eq_getElem_cons (by omega),
      show stop - start = stop - start - 1 + 1 by omega, List.take_succ_cons]
    exact List.mem_cons_self

theorem step?_of_fits_variable {reference : Reference}
    (isVariable : token.element = .variable reference)
    (fits : Share.Fits strict text earlier ⟨token, start, stop, capture⟩ later) :
    ∃ skipped', Token.step? strict (Share.endsInSpace earlier) skipped later token
      (Cursor.inside text start) = some ⟨Cursor.inside text stop, capture, skipped'⟩ := by
  simp only [Share.Fits, isVariable] at fits
  obtain ⟨first, leading, word, mandatory, rfl⟩ := fits
  have begins : (if Share.endsInSpace earlier then Cursor.inside text start
      else (Cursor.inside text start).skipSpace) = Cursor.inside text first := by
    split at leading
    · next ends => rw [if_pos ends, leading]
    · next ends => rw [if_neg ends, leading.skipSpace_eq]
  have ended := (word_wordLength (Nat.le_trans word.ordered word.inside)).unique word
  simp only [Token.step?, isVariable, begins]
  rw [Cursor.inside_rest]
  generalize Token.wordLength _ (text.drop first) = n at ended ⊢
  subst ended
  refine ⟨n == 0, ?_⟩
  rw [if_neg, Cursor.inside_advance, Bytes.between, Nat.add_sub_cancel_left]
  · rfl
  · simp only [Bool.and_eq_true, decide_eq_true_eq, Bool.not_eq_true', not_and,
      Bool.not_eq_false]
    rintro rfl
    exact mandatory rfl

theorem step?_of_fits_block {reference : Reference} {delimiters : Delimiters}
    (isBlock : token.element = .block reference delimiters)
    (openerNonempty : delimiters.opener ≠ []) (closerNonempty : delimiters.closer ≠ [])
    (fits : Share.Fits strict text earlier ⟨token, start, stop, capture⟩ later) :
    ∃ skipped', Token.step? strict (Share.endsInSpace earlier) skipped later token
      (Cursor.inside text start) = some ⟨Cursor.inside text stop, capture, skipped'⟩ := by
  simp only [Share.Fits, isBlock, Share.Absent] at fits
  simp only [Token.step?, isBlock]
  rw [Cursor.inside_rest]
  rcases fits with ⟨block, found, closed, rfl⟩ | ⟨optional, absent, rfl, rfl⟩
  · refine ⟨false, ?_⟩
    rw [found.read]
    dsimp only
    rw [if_pos, found.moveTo_eq]
    · rfl
    · cases strict with
      | false => simp
      | true => simp [closed rfl]
  · refine ⟨true, ?_⟩
    rw [(Block.read?_eq_none_iff openerNonempty closerNonempty).mpr absent]
    dsimp only
    rw [if_pos optional]
    rfl

theorem step?_of_fits_blocks {reference : Reference} {delimiters : Delimiters}
    (isBlocks : token.element = .blocks reference delimiters)
    (openerNonempty : delimiters.opener ≠ []) (closerNonempty : delimiters.closer ≠ [])
    (fits : Share.Fits strict text earlier ⟨token, start, stop, capture⟩ later) :
    ∃ skipped', Token.step? strict (Share.endsInSpace earlier) skipped later token
      (Cursor.inside text start) = some ⟨Cursor.inside text stop, capture, skipped'⟩ := by
  simp only [Share.Fits, isBlocks, Share.Absent] at fits
  simp only [Token.step?, isBlocks]
  rcases fits with ⟨inners, run, rfl⟩ | ⟨optional, absent, rfl, rfl⟩
  · refine ⟨false, ?_⟩
    have split : text.drop start = text.between start stop ++ text.drop stop :=
      (Bytes.between_append_drop run.ordered.1).symm
    rw [run.blockRun_eq]
    cases inners with
    | nil => exact (run.ne_nil rfl).elim
    | cons inner inners =>
        dsimp only
        rw [Cursor.inside_rest,
          Cursor.inside_sliceTo split]
  · refine ⟨true, ?_⟩
    rw [blockRun_of_absent
      ((Block.read?_eq_none_iff openerNonempty closerNonempty).mpr absent)]
    dsimp only
    rw [if_pos optional]
    rfl

/-- Every share that fits is a step of the matcher. -/
theorem step?_of_fits (wellFormed : token.WellFormed) (ordered : start ≤ stop)
    (inside : stop ≤ text.length)
    (recorded : skipped = true ↔ Share.AfterNothing text earlier)
    (fits : Share.Fits strict text earlier ⟨token, start, stop, capture⟩ later) :
    ∃ skipped', Token.step? strict (Share.endsInSpace earlier) skipped later token
      (Cursor.inside text start) = some ⟨Cursor.inside text stop, capture, skipped'⟩ := by
  unfold Token.WellFormed at wellFormed
  split at wellFormed
  · next literal =>
      simp only [Share.Fits, literal] at fits
      obtain ⟨same, rfl⟩ := fits
      obtain ⟨begins, rfl⟩ := (Bytes.prefix_drop_iff ordered inside).mp same
      refine ⟨false, ?_⟩
      simp only [Token.step?, literal]
      rw [Cursor.inside_rest, if_pos (List.isPrefixOf_iff_prefix.mpr begins),
        Cursor.inside_advance]
      rfl
  · next space => exact step?_of_fits_space space recorded fits
  · next isVariable => exact step?_of_fits_variable isVariable fits
  · next isBlock => exact step?_of_fits_block isBlock wellFormed.1 wellFormed.2 fits
  · next isBlocks => exact step?_of_fits_blocks isBlocks wellFormed.1 wellFormed.2 fits

end Step

theorem Reading.cons {strict : Bool} {text : Bytes} {earlier : List Share}
    {tokens : List Token} {share : Share} {shares : List Share} {stop : Nat}
    (ordered : share.start ≤ share.stop) (fits : share.Fits strict text earlier tokens)
    (reading : Reading strict text (earlier ++ [share]) tokens share.stop shares stop) :
    Reading strict text earlier (share.token :: tokens) share.start (share :: shares)
      stop where
  tokens := by rw [List.map_cons, reading.tokens]
  consecutive := .cons ordered reading.consecutive
  inside := reading.inside
  fits := by
    intro before other after same
    cases before with
    | nil =>
        rw [List.nil_append, List.cons.injEq] at same
        obtain ⟨rfl, rfl⟩ := same
        rw [List.append_nil, reading.tokens]
        exact fits
    | cons first before =>
        rw [List.cons_append, List.cons.injEq] at same
        obtain ⟨rfl, rfl⟩ := same
        have later := reading.fits before other after rfl
        rwa [List.append_assoc] at later

theorem Reading.uncons {strict : Bool} {text : Bytes} {earlier : List Share}
    {token : Token} {tokens : List Token} {shares : List Share} {start stop : Nat}
    (reading : Reading strict text earlier (token :: tokens) start shares stop) :
    ∃ share rest, shares = share :: rest ∧ share.token = token ∧ share.start = start ∧
      share.start ≤ share.stop ∧ share.Fits strict text earlier tokens ∧
      Reading strict text (earlier ++ [share]) tokens share.stop rest stop := by
  obtain ⟨sameTokens, consecutive, inside, fits⟩ := reading
  cases consecutive with
  | nil => cases sameTokens
  | @cons share rest _ ordered consecutive =>
      rw [List.map_cons, List.cons.injEq] at sameTokens
      obtain ⟨sameToken, rfl⟩ := sameTokens
      have first := fits [] share rest rfl
      rw [List.append_nil] at first
      refine ⟨share, rest, rfl, sameToken, rfl, ordered, first, rfl, consecutive, inside, ?_⟩
      intro before other after same
      have later := fits (share :: before) other after (by rw [same]; rfl)
      rwa [List.append_assoc]

theorem Share.Consecutive.le {start stop : Nat} {shares : List Share}
    (consecutive : Share.Consecutive start shares stop) : start ≤ stop := by
  induction consecutive with
  | nil => exact Nat.le_refl _
  | cons ordered _ ih => exact Nat.le_trans ordered ih

/-- The matcher runs over the tokens exactly along the readings. -/
theorem run?_eq_some_iff {strict skipped : Bool} {text : Bytes} {earlier : List Share}
    {tokens : List Token} {start : Nat} {captures : List Capture} {last : Cursor}
    (wellFormed : ∀ token ∈ tokens, token.WellFormed) (inside : start ≤ text.length)
    (recorded : skipped = true ↔ Share.AfterNothing text earlier) :
    Token.run? strict (Share.endsInSpace earlier) skipped tokens (Cursor.inside text start) =
        some (captures, last) ↔
      ∃ shares stop, Reading strict text earlier tokens start shares stop ∧
        captures = shares.filterMap Share.capture ∧ last = Cursor.inside text stop := by
  induction tokens generalizing earlier skipped start captures with
  | nil =>
      constructor
      · intro ran
        cases ran
        refine ⟨[], start, ⟨rfl, .nil, inside, ?_⟩, rfl, rfl⟩
        intro before share after same
        cases before <;> cases same
      · rintro ⟨shares, stop, reading, rfl, rfl⟩
        obtain rfl := List.map_eq_nil_iff.mp reading.tokens
        cases reading.consecutive
        rfl
  | cons token tokens ih =>
      have tokenWellFormed := wellFormed token List.mem_cons_self
      have restWellFormed : ∀ later ∈ tokens, later.WellFormed :=
        fun later member => wellFormed later (List.mem_cons_of_mem _ member)
      constructor
      · intro ran
        rw [Token.run?] at ran
        split at ran
        · cases ran
        next step stepped =>
          obtain ⟨behind, step_⟩ := stepFits_of_step? tokenWellFormed inside recorded stepped
          obtain ⟨⟨rest, last'⟩, later, pair⟩ := Option.map_eq_some_iff.mp ran
          cases pair
          let share : Share := ⟨token, start, behind, step.capture⟩
          rw [step_.cursor, ← Share.endsInSpace_concat earlier share] at later
          obtain ⟨shares, stop, reading, rfl, rfl⟩ :=
            (ih restWellFormed step_.inside step_.skipped).mp later
          refine ⟨share :: shares, stop, reading.cons step_.ordered step_.fits, ?_, rfl⟩
          cases captured : step.capture with
          | none => simp [share, captured]
          | some capture => simp [share, captured]
      · rintro ⟨shares, stop, reading, rfl, rfl⟩
        obtain ⟨share, rest, rfl, rfl, rfl, ordered, fits, later⟩ := reading.uncons
        have bound := Nat.le_trans later.consecutive.le later.inside
        obtain ⟨skipped', stepped⟩ := step?_of_fits tokenWellFormed ordered bound recorded fits
        obtain ⟨behind, step_⟩ := stepFits_of_step? tokenWellFormed inside recorded stepped
        obtain rfl := Cursor.inside_injective step_.cursor
        have ran := (ih restWellFormed bound step_.skipped).mpr ⟨rest, stop, later, rfl, rfl⟩
        rw [Share.endsInSpace_concat] at ran
        rw [Token.run?, stepped]
        dsimp only
        rw [ran]
        cases captured : share.capture with
        | none => simp [captured]
        | some capture => simp [captured]

namespace Pattern

/-- The match that a reading from `start` to `stop` describes. -/
def matchOf (text : Bytes) (start : Nat) (shares : List Share) (stop : Nat) : Match where
  matched := ⟨start, text.between start stop⟩
  captures := shares.filterMap Share.capture
  rest := text.drop stop

theorem matchFrom?_eq_some_iff {pattern : Pattern}
    (wellFormed : ∀ token ∈ pattern.tokens, token.WellFormed) {strict : Bool} {text : Bytes}
    {start : Nat} (inside : start ≤ text.length) {found : Match} :
    pattern.matchFrom? strict (Cursor.inside text start) = some found ↔
      ∃ shares stop, Reading strict text [] pattern.tokens start shares stop ∧
        found = matchOf text start shares stop := by
  have nothingBefore : false = true ↔ Share.AfterNothing text [] := by
    constructor
    · intro impossible
      cases impossible
    · rintro ⟨before, share, spaces, same, _⟩
      cases before <;> cases same
  have described : ∀ {shares : List Share} {stop : Nat},
      Reading strict text [] pattern.tokens start shares stop →
        (Cursor.inside text start).sliceTo (Cursor.inside text stop).rest =
          ⟨start, text.between start stop⟩ := by
    intro shares stop reading
    exact Cursor.inside_sliceTo (Bytes.between_append_drop reading.consecutive.le).symm
  unfold matchFrom?
  rw [Option.map_eq_some_iff]
  constructor
  · rintro ⟨⟨captures, last⟩, ran, rfl⟩
    obtain ⟨shares, stop, reading, rfl, rfl⟩ :=
      (run?_eq_some_iff wellFormed inside nothingBefore).mp ran
    refine ⟨shares, stop, reading, ?_⟩
    dsimp only
    rw [described reading]
    rfl
  · rintro ⟨shares, stop, reading, rfl⟩
    refine ⟨(_, _), (run?_eq_some_iff wellFormed inside nothingBefore).mpr
      ⟨shares, stop, reading, rfl, rfl⟩, ?_⟩
    dsimp only
    rw [described reading]
    rfl

/-- A compiled pattern matches at a place exactly when the text has a reading
from there on, and the match is the one the reading describes. -/
theorem matchAt?_iff_reading {source : Bytes} {symbols : Symbols} {pattern : Pattern}
    (compiled : Pattern.compile source symbols = .ok pattern) (strict : Bool) {text : Bytes}
    {start : Nat} (inside : start ≤ text.length) (found : Match) :
    pattern.matchAt? strict text start = some found ↔
      ∃ shares stop, Reading strict text [] pattern.tokens start shares stop ∧
        found = matchOf text start shares stop := by
  rw [← matchFrom?_eq_some_iff (wellFormed_of_compile compiled) inside]
  show (if start ≤ text.length then _ else _) = _ ↔ _
  rw [if_pos inside]

/-- The pattern `$a $b?` matches `ab`: the white space and the second word are
missing, which is allowed because no mandatory token follows. -/
theorem matchAt?_iff_reading_missing_space :
    ∃ pattern, Pattern.compile [0x24, 0x61, 0x20, 0x24, 0x62, 0x3F] .standard = .ok pattern ∧
      0 ≤ [0x61, 0x62].length ∧
      ∃ shares stop, Reading false [0x61, 0x62] [] pattern.tokens 0 shares stop ∧
        (⟨⟨0, [0x61, 0x62]⟩, [⟨[0x61], ⟨0, [0x61, 0x62]⟩, none⟩, ⟨[0x62], ⟨2, []⟩, none⟩], []⟩ :
          Match) = matchOf [0x61, 0x62] 0 shares stop := by
  refine ⟨_, compile_standard _, by decide, ?_⟩
  apply (matchAt?_iff_reading (compile_standard _) false (by decide) _).mp
  decide +kernel

end Pattern

end Stencil
