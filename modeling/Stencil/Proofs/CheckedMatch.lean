import Stencil.Proofs.CheckedPattern
import Stencil.Proofs.MatchBounds

/-!
# Checked matching

The matcher with offsets into the text, and with the names and literals of the tokens
read from the pattern.  Each token moves an offset instead of a cursor.  What a match
captured is read from the text by its offsets.
-/

namespace Stencil.Checked

/-- What one token made of the text at an offset. -/
structure Step where
  offset : Int
  capture : Option Capture
  skipped : Bool

/-- The step of the matcher, with the offset of its cursor. -/
def Step.of (step : Stencil.Step) : Step :=
  ⟨step.cursor.offset, step.capture, step.skipped⟩

/-- The text that shows that a token begins. -/
def openingOf (source : Bytes) (token : Token) : Run (Option Bytes) :=
  match token.element with
  | .literal => do
      return some (← resolve token.text source)
  | .block _ delimiters | .blocks _ delimiters => pure (some delimiters.opener)
  | _ => pure none

/-- The text at which a variable has to stop. -/
def stopOf (source : Bytes) (later : List Token) : Run (Option Bytes) :=
  match Token.firstSignificant? later with
  | some token => openingOf source token
  | none => pure none

/-- Reads a run of blocks, of which the first begins at the offset. -/
def blocksAt (strict : Bool) (text opener closer : Bytes) (offset : Int) :
    Run (Option (List Slice × Int)) := do
  let (inner, stop, closed) ← blockAt text offset opener closer
  if !closed && strict then
    return none
  else
    let next ← skipWhile Bytes.isSpace text stop
    let further ← if closed then startsAt text next opener else pure false
    if further then
      goOn text offset next fun _ => do
        let later ← blocksAt strict text opener closer next
        return later.map fun (inners, last) => (inner :: inners, last)
    else
      return some ([inner], stop)
termination_by (text.length - offset).toNat
decreasing_by omega

/-- A block or a sequence whose opener is missing. -/
def absentAt (source text : Bytes) (reference : Reference) (offset : Int) :
    Run (Option Step) := do
  if reference.optional then
    let name ← resolve reference.name source
    let value ← sliceAt text offset offset
    return some ⟨offset, some { name, value }, true⟩
  else
    return none

/-- Where a word begins: behind the white space, unless a token has taken it. -/
def wordStart (afterSpace : Bool) (text : Bytes) (offset : Int) : Run Int :=
  if afterSpace then pure offset else skipWhile Bytes.isSpace text offset

/-- Matches one token at an offset. -/
def stepAt (source text : Bytes) (strict afterSpace skipped : Bool) (later : List Token)
    (token : Token) (offset : Int) : Run (Option Step) :=
  match token.element with
  | .space => do
      if ← standsAt Bytes.isSpace text offset then
        return some ⟨← skipWhile Bytes.isSpace text offset, none, skipped⟩
      else if Token.allOptional later || skipped then
        return some ⟨offset, none, skipped⟩
      else
        return none
  | .literal => do
      let literal ← resolve token.text source
      if ← startsAt text offset literal then
        return some ⟨offset + literal.length, none, false⟩
      else
        return none
  | .variable reference => do
      let start ← wordStart afterSpace text offset
      let stop ← scan (wordEndsAt (← stopOf source later) text) text.length start
      if stop = start && !reference.optional then
        return none
      else
        let name ← resolve reference.name source
        let value ← sliceAt text start stop
        return some ⟨stop, some { name, value }, stop = start⟩
  | .block reference delimiters => do
      if ← startsAt text offset delimiters.opener then
        let (value, stop, closed) ← blockAt text offset delimiters.opener delimiters.closer
        if closed || !strict then
          let name ← resolve reference.name source
          return some ⟨stop, some { name, value }, false⟩
        else
          return none
      else
        absentAt source text reference offset
  | .blocks reference delimiters => do
      -- the name is read before the opener is looked for
      let name ← resolve reference.name source
      if ← startsAt text offset delimiters.opener then
        match ← blocksAt strict text delimiters.opener delimiters.closer offset with
        | none => return none
        | some (inners, stop) =>
            let value ← sliceAt text offset stop
            return some ⟨stop, some { name, value, parts := some inners }, false⟩
      else
        absentAt source text reference offset

/-- Matches tokens one after the other. -/
def runAt (source text : Bytes) (strict : Bool) :
    (afterSpace skipped : Bool) → List Token → Int → Run (Option (List Capture × Int))
  | _, _, [], offset => pure (some ([], offset))
  | afterSpace, skipped, token :: later, offset => do
      match ← stepAt source text strict afterSpace skipped later token offset with
      | none => return none
      | some step =>
          let rest ← runAt source text strict token.isSpace step.skipped later step.offset
          return rest.map fun (captures, last) => (step.capture.toList ++ captures, last)

/-- Matches a pattern at an offset of a text. -/
def matchAt (pattern : Pattern) (strict : Bool) (text : Bytes) (offset : Int) :
    Run (Option Match) :=
  if offset < 0 ∨ text.length < offset then
    pure none
  else do
    match ← runAt pattern.source text strict false false pattern.tokens offset with
    | none => return none
    | some (captures, stop) =>
        return some { matched := ← sliceAt text offset stop, captures, rest := ← behind text stop }

/-- Where a search goes on: behind a match that consumed something, and one character
later otherwise. -/
def onward (text : Bytes) (offset : Int) : Option Match → Run Int
  | some found =>
      if offset < found.stop then pure found.stop
      else do
        return offset + (← widthAt text offset)
  | none => do
      return offset + (← widthAt text offset)

/-- The leftmost non-overlapping matches from an offset on. -/
def findFrom (pattern : Pattern) (text : Bytes) (offset : Int) : Run (List Match) :=
  if offset < text.length then do
    let found ← matchAt pattern false text offset
    let next ← onward text offset found
    goOn text offset next fun _ => do
      return found.toList ++ (← findFrom pattern text next)
  else
    pure []
termination_by (text.length - offset).toNat
decreasing_by omega

/-- The leftmost non-overlapping matches in a text. -/
def findAll (pattern : Pattern) (text : Bytes) : Run (List Match) :=
  findFrom pattern text 0

/-- The text of a match. -/
def textOf (text : Bytes) (found : Match) : Run Bytes :=
  cut text found.start found.stop

/-- The value of the first capture of a name. -/
def lookupIn (text : Bytes) (found : Match) (name : Bytes) : Run (Option Bytes) :=
  match found.capture? name with
  | none => pure none
  | some capture => do
      return some (← resolve capture.value text)

/-- The parts captured under a name. -/
def partsIn (text : Bytes) (found : Match) (name : Bytes) : Run (Option (List Bytes)) :=
  match found.capture? name with
  | none => pure none
  | some capture =>
      match capture.parts with
      | some parts => do
          return some (← parts.mapM (resolve · text))
      | none =>
          if capture.value.length = 0 then pure none
          else do
            return some [← resolve capture.value text]

/-- What is read from the pattern when a token is matched. -/
structure Readable (source : Bytes) (token : Token) : Prop where
  text : resolve token.text source = pure token.text.text
  name : ∀ reference ∈ token.reference?,
    resolve reference.name source = pure reference.name.text

theorem laid_le {text : Bytes} {start stop : Nat} {slices : List Slice}
    (laid : Slice.Laid text start slices stop) : start ≤ stop := by
  induction laid with
  | nil => exact Nat.le_refl _
  | cons _ _ _ ih => exact Nat.le_trans (Nat.le_add_right _ _) ih

theorem inside_of_laid {text : Bytes} {start stop : Nat} {slices : List Slice}
    (laid : Slice.Laid text start slices stop) (inside : stop ≤ text.length) {slice : Slice}
    (member : slice ∈ slices) : slice.stop ≤ text.length ∧ slice.Of text := by
  induction laid with
  | nil => cases member
  | cons _ stands laid ih =>
      rcases List.mem_cons.mp member with rfl | member
      · exact ⟨Nat.le_trans (laid_le laid) inside, stands⟩
      · exact ih inside member

theorem readable_of_compile {source : Bytes} {symbols : Symbols} {pattern : Pattern}
    (compiled : Pattern.compile source symbols = .ok pattern) {token : Token}
    (member : token ∈ pattern.tokens) : Readable pattern.source token := by
  have cutting := Pattern.cutting_of_compile compiled
  obtain ⟨-, rfl⟩ := Pattern.compile_eq_ok_iff.mp compiled
  obtain ⟨inside, stands⟩ := inside_of_laid cutting.laid (Nat.le_refl _)
    (List.mem_map_of_mem member)
  refine ⟨resolve_eq stands inside, ?_⟩
  intro reference named
  have written : reference.Inside source token.text := by
    have canonical := cutting.canonical token member
    unfold Token.Canonical at canonical
    simp only [Token.reference?, Option.mem_def] at named
    split at canonical <;> rename_i kind <;> simp only [kind] at named
    · cases named
    · cases named
    · cases named
      exact canonical.2
    · cases named
      exact canonical.2.1
    · cases named
      exact canonical.2.1
  exact resolve_eq written.stands (Nat.le_trans written.within.upper inside)

section Tokens

variable {source text : Bytes} {strict afterSpace skipped : Bool} {later : List Token}
  {token : Token} {place : Nat}

theorem openingOf_eq (readable : Readable source token) :
    openingOf source token = pure token.opening? := by
  unfold openingOf Token.opening?
  cases token.element with
  | literal => simp only [readable.text, pure_bind]
  | space => rfl
  | «variable» reference => rfl
  | block reference delimiters => rfl
  | blocks reference delimiters => rfl

theorem stopOf_eq (readable : ∀ token ∈ later, Readable source token) :
    stopOf source later = pure ((Token.firstSignificant? later).bind Token.opening?) := by
  unfold stopOf
  cases first : Token.firstSignificant? later with
  | none => rfl
  | some token => exact openingOf_eq (readable token (List.mem_of_find?_eq_some first))

theorem blocksAt_eq (strict : Bool) {delimiters : Delimiters}
    (openerNonempty : delimiters.opener ≠ []) (closerNonempty : delimiters.closer ≠ [])
    (inside : place ≤ text.length) (opens : delimiters.opener <+: text.drop place) :
    blocksAt strict text delimiters.opener delimiters.closer place =
      pure ((Token.blockRun strict delimiters.opener delimiters.closer
        (Cursor.inside text place)).map fun (inners, last) => (inners, (last.offset : Int))) := by
  -- every further block begins later in the text
  induction remaining : text.length - place using Nat.strongRecOn generalizing place with
  | _ remaining ih =>
      obtain ⟨block, read⟩ := Option.ne_none_iff_exists'.mp
        fun absent => (Block.read?_eq_none_iff openerNonempty closerNonempty).mp absent opens
      obtain ⟨stop, found, -⟩ := exists_blockAt inside read
      obtain ⟨next, space⟩ : ∃ next, SpaceRun text stop next :=
        ⟨_, spaceRun_takeWhile found.inside⟩
      rw [blockRun_of_blockAt found, space.skipSpace_eq, blocksAt,
        blockAt_eq inside read found.inside found.rest]
      simp only [pure_bind, skipWhile_space found.inside space, startsAt_eq space.inside,
        Cursor.inside_rest]
      cases finished : block.closed with
      | false => cases strict <;> rfl
      | true =>
          by_cases further : delimiters.opener.isPrefixOf (text.drop next) = true
          · have beyond := found.lt
            have ordered := space.ordered
            have bound := space.inside
            have rest := ih _ (by omega) bound (List.isPrefixOf_iff_prefix.mp further) rfl
            have moves : (place : Int) < next := by omega
            simp only [if_true, Bool.not_true, Bool.false_and, Bool.false_eq_true, if_false,
              further, pure_bind, goOn_eq moves (Int.ofNat_le.mpr bound), rest, Option.map_map]
            rfl
          · simp only [if_true, Bool.not_true, Bool.false_and, Bool.false_eq_true, if_false,
              further]
            rfl

theorem stepAt_space (space : token.element = .space) (inside : place ≤ text.length) :
    stepAt source text strict afterSpace skipped later token place =
      pure ((token.step? strict afterSpace skipped later (Cursor.inside text place)).map
        Step.of) := by
  unfold stepAt Token.step?
  simp only [space, standsAt_eq, pure_bind, skipWhile_eq _ inside, Cursor.inside_rest,
    List.head?_drop]
  split
  · rfl
  · split
    · rfl
    · rfl

theorem stepAt_literal (literal : token.element = .literal) (readable : Readable source token)
    (inside : place ≤ text.length) :
    stepAt source text strict afterSpace skipped later token place =
      pure ((token.step? strict afterSpace skipped later (Cursor.inside text place)).map
        Step.of) := by
  have model : token.step? strict afterSpace skipped later (Cursor.inside text place) =
      if token.text.text.isPrefixOf (text.drop place) then
        some ⟨Cursor.inside text (place + token.text.length), none, false⟩
      else none := by
    simp only [Token.step?, literal, Cursor.inside_advance]
    rfl
  unfold stepAt
  simp only [model, literal, readable.text, startsAt_eq inside, pure_bind]
  split
  · rfl
  · rfl

theorem wordStart_eq (afterSpace : Bool) (inside : place ≤ text.length) :
    ∃ first : Nat, wordStart afterSpace text place = pure (first : Int) ∧
      (if afterSpace then Cursor.inside text place else (Cursor.inside text place).skipSpace) =
        Cursor.inside text first ∧ first ≤ text.length := by
  cases afterSpace with
  | true => exact ⟨place, rfl, rfl, inside⟩
  | false =>
      have space : SpaceRun text place _ := spaceRun_takeWhile inside
      exact ⟨_, skipWhile_space inside space, space.skipSpace_eq, space.inside⟩

theorem step?_variable {reference : Reference} (isVariable : token.element = .variable reference)
    {first : Nat}
    (moved : (if afterSpace then Cursor.inside text place
      else (Cursor.inside text place).skipSpace) = Cursor.inside text first) {length : Nat}
    (word : Token.wordLength ((Token.firstSignificant? later).bind Token.opening?)
      (text.drop first) = length) :
    token.step? strict afterSpace skipped later (Cursor.inside text place) =
      if length = 0 && !reference.optional then none
      else
        some ⟨Cursor.inside text (first + length),
          some { name := reference.name.text, value := ⟨first, (text.drop first).take length⟩ },
          length == 0⟩ := by
  subst word
  simp only [Token.step?, isVariable, moved, Cursor.inside_advance]
  rfl

theorem stepAt_variable {reference : Reference} (isVariable : token.element = .variable reference)
    (readable : Readable source token) (following : ∀ token ∈ later, Readable source token)
    (inside : place ≤ text.length) :
    stepAt source text strict afterSpace skipped later token place =
      pure ((token.step? strict afterSpace skipped later (Cursor.inside text place)).map
        Step.of) := by
  have named := readable.name reference (by simp [Token.reference?, isVariable])
  obtain ⟨first, started, moved, within⟩ := wordStart_eq afterSpace inside
  have word : Word text later first _ := word_wordLength within
  have scanned := scan_wordLength ((Token.firstSignificant? later).bind Token.opening?) within
  generalize known : Token.wordLength ((Token.firstSignificant? later).bind Token.opening?)
    (text.drop first) = length at word scanned
  have same : decide (((first + length : Nat) : Int) = first) = decide (length = 0) := by
    simp only [decide_eq_decide]
    omega
  unfold stepAt
  simp only [isVariable, started, pure_bind, stopOf_eq following, scanned, named, same,
    sliceAt_eq (Nat.le_add_right _ _) word.inside, step?_variable isVariable moved known]
  split
  · rfl
  · rw [Bytes.between, Nat.add_sub_cancel_left]
    rfl

theorem absentAt_eq {reference : Reference}
    (named : resolve reference.name source = pure reference.name.text)
    (inside : place ≤ text.length) :
    absentAt source text reference place =
      pure (if reference.optional then
        some ⟨place, some { name := reference.name.text, value := ⟨place, []⟩ }, true⟩
      else none) := by
  unfold absentAt
  simp only [named, sliceAt_eq (Nat.le_refl _) inside, pure_bind, Bytes.between_self]
  split
  · rfl
  · rfl

theorem stepAt_block {reference : Reference} {delimiters : Delimiters}
    (isBlock : token.element = .block reference delimiters) (readable : Readable source token)
    (openerNonempty : delimiters.opener ≠ []) (closerNonempty : delimiters.closer ≠ [])
    (inside : place ≤ text.length) :
    stepAt source text strict afterSpace skipped later token place =
      pure ((token.step? strict afterSpace skipped later (Cursor.inside text place)).map
        Step.of) := by
  have named := readable.name reference (by simp [Token.reference?, isBlock])
  unfold stepAt Token.step?
  simp only [isBlock, startsAt_eq inside, pure_bind, Cursor.inside_rest]
  cases read : Block.read? delimiters.opener delimiters.closer (text.drop place) with
  | none =>
      have absent := (Block.read?_eq_none_iff openerNonempty closerNonempty).mp read
      rw [if_neg (mt List.isPrefixOf_iff_prefix.mp absent), absentAt_eq named inside]
      split
      · rfl
      · rfl
  | some block =>
      obtain ⟨stop, found, moved⟩ := exists_blockAt inside read
      have opens := List.isPrefixOf_iff_prefix.mpr found.opener_prefix
      rw [if_pos opens, blockAt_eq inside read found.inside found.rest]
      simp only [pure_bind, named, moved]
      split
      · rfl
      · rfl

theorem stepAt_blocks {reference : Reference} {delimiters : Delimiters}
    (isBlocks : token.element = .blocks reference delimiters) (readable : Readable source token)
    (openerNonempty : delimiters.opener ≠ []) (closerNonempty : delimiters.closer ≠ [])
    (inside : place ≤ text.length) :
    stepAt source text strict afterSpace skipped later token place =
      pure ((token.step? strict afterSpace skipped later (Cursor.inside text place)).map
        Step.of) := by
  have named := readable.name reference (by simp [Token.reference?, isBlocks])
  unfold stepAt Token.step?
  simp only [isBlocks, startsAt_eq inside, named, pure_bind]
  by_cases opens : delimiters.opener <+: text.drop place
  · rw [if_pos (List.isPrefixOf_iff_prefix.mpr opens),
      blocksAt_eq strict openerNonempty closerNonempty inside opens, pure_bind]
    cases read : Token.blockRun strict delimiters.opener delimiters.closer
      (Cursor.inside text place) with
    | none => rfl
    | some both =>
        obtain ⟨inners, last⟩ := both
        obtain ⟨stop, rfl, run⟩ :=
          blockRun_of_some inside openerNonempty closerNonempty opens read
        obtain ⟨ordered, within⟩ := run.ordered
        obtain ⟨first, rest, rfl⟩ := List.exists_cons_of_ne_nil run.ne_nil
        simp only [Option.map_some, Cursor.inside_offset, sliceAt_eq ordered within,
          pure_bind, Cursor.inside_rest, Cursor.inside_sliceTo_drop ordered]
        rfl
  · have absent := (Block.read?_eq_none_iff openerNonempty closerNonempty).mpr opens
    rw [if_neg (mt List.isPrefixOf_iff_prefix.mp opens), absentAt_eq named inside,
      blockRun_of_absent absent]
    split
    · rfl
    · rfl

/-- One step reads nothing outside of the text and the pattern. -/
theorem stepAt_eq (wellFormed : token.WellFormed) (readable : Readable source token)
    (following : ∀ token ∈ later, Readable source token) (inside : place ≤ text.length) :
    stepAt source text strict afterSpace skipped later token place =
      pure ((token.step? strict afterSpace skipped later (Cursor.inside text place)).map
        Step.of) := by
  unfold Token.WellFormed at wellFormed
  split at wellFormed
  · next literal => exact stepAt_literal literal readable inside
  · next space => exact stepAt_space space inside
  · next isVariable => exact stepAt_variable isVariable readable following inside
  · next isBlock => exact stepAt_block isBlock readable wellFormed.1 wellFormed.2 inside
  · next isBlocks => exact stepAt_blocks isBlocks readable wellFormed.1 wellFormed.2 inside

end Tokens

/-- The run over all tokens, behind the shares of earlier tokens. -/
theorem runAt_eq {source text : Bytes} {strict skipped : Bool} {tokens : List Token}
    {earlier : List Share} {place : Nat} (wellFormed : ∀ token ∈ tokens, token.WellFormed)
    (readable : ∀ token ∈ tokens, Readable source token) (inside : place ≤ text.length)
    (recorded : skipped = true ↔ Share.AfterNothing text earlier) :
    runAt source text strict (Share.endsInSpace earlier) skipped tokens place =
      pure ((Token.run? strict (Share.endsInSpace earlier) skipped tokens
        (Cursor.inside text place)).map fun (captures, last) =>
          (captures, (last.offset : Int))) := by
  induction tokens generalizing earlier skipped place with
  | nil => rfl
  | cons token later ih =>
      have following : ∀ token ∈ later, Readable source token :=
        fun token member => readable token (List.mem_cons_of_mem _ member)
      have first := wellFormed token List.mem_cons_self
      rw [runAt, stepAt_eq first (readable token List.mem_cons_self) following inside, pure_bind,
        Token.run?]
      cases stepped : token.step? strict (Share.endsInSpace earlier) skipped later
        (Cursor.inside text place) with
      | none => rfl
      | some step =>
          obtain ⟨stop, fits⟩ := stepFits_of_step? first inside recorded stepped
          have rest := ih (fun token member => wellFormed token (List.mem_cons_of_mem _ member))
            following fits.inside fits.skipped
          rw [Share.endsInSpace_concat] at rest
          simp only [Option.map_some, Step.of, fits.cursor, Cursor.inside_offset, rest, pure_bind,
            Option.map_map]
          rfl

/-- The place at which a search goes on. -/
def nextPlace (text : Bytes) (place : Nat) : Option Match → Nat
  | some found =>
      if place < found.stop then found.stop else place + Utf8.width (text.drop place)
  | none => place + Utf8.width (text.drop place)

theorem onward_eq {text : Bytes} {place : Nat} (more : place < text.length)
    (found : Option Match) : onward text place found = pure (nextPlace text place found : Int) := by
  cases found with
  | none => exact congrArg (· >>= _) (widthAt_eq more)
  | some found =>
      simp only [onward, nextPlace, widthAt_eq more, pure_bind, Int.ofNat_lt]
      split
      · rfl
      · rfl

section Matches

variable {source : Bytes} {symbols : Symbols} {pattern : Pattern}
  (compiled : Pattern.compile source symbols = .ok pattern)

include compiled

theorem matchAt_inside (strict : Bool) {text : Bytes} {place : Nat}
    (inside : place ≤ text.length) :
    matchAt pattern strict text place =
      pure (pattern.matchFrom? strict (Cursor.inside text place)) := by
  have wellFormed := Pattern.wellFormed_of_compile compiled
  have nothing : false = true ↔ Share.AfterNothing text [] := by
    simp [Share.AfterNothing]
  have readable : ∀ token ∈ pattern.tokens, Readable pattern.source token :=
    fun token member => readable_of_compile compiled member
  have ran : runAt pattern.source text strict false false pattern.tokens place =
      pure ((Token.run? strict false false pattern.tokens (Cursor.inside text place)).map
        fun (captures, last) => (captures, (last.offset : Int))) :=
    runAt_eq wellFormed readable inside nothing
  rw [matchAt, if_neg (by omega), ran, pure_bind, Pattern.matchFrom?]
  cases found : Token.run? strict false false pattern.tokens (Cursor.inside text place) with
  | none => rfl
  | some both =>
      obtain ⟨captures, last⟩ := both
      obtain ⟨shares, stop, reading, -, rfl⟩ :=
        (run?_eq_some_iff wellFormed inside nothing).mp found
      have ordered := reading.consecutive.le
      simp only [Option.map_some, Cursor.inside_offset, sliceAt_eq ordered reading.inside,
        behind_eq reading.inside, pure_bind, Cursor.inside_rest,
        Cursor.inside_sliceTo_drop ordered]

/-- Matching reads nothing outside of the text, wherever it is tried. -/
theorem matchAt_eq (strict : Bool) (text : Bytes) (offset : Int) :
    matchAt pattern strict text offset = pure (pattern.matchAt? strict text offset) := by
  cases offset with
  | negSucc n => exact if_pos (.inl (Int.negSucc_lt_zero n))
  | ofNat n =>
      by_cases inside : n ≤ text.length
      · exact (matchAt_inside compiled strict inside).trans
          (congrArg pure (Pattern.matchAt?_ofNat inside).symm)
      · have beyond : (text.length : Int) < (n : Int) := by omega
        have absent : pattern.matchAt? strict text (.ofNat n) = none := if_neg inside
        rw [absent]
        exact if_pos (.inr beyond)

theorem nextPlace_bounds (strict : Bool) {text : Bytes} {place : Nat} (more : place < text.length) :
    place < nextPlace text place (pattern.matchFrom? strict (Cursor.inside text place)) ∧
      nextPlace text place (pattern.matchFrom? strict (Cursor.inside text place)) ≤
        text.length := by
  have wide := Utf8.width_pos (text.drop place)
  have fits := width_le more
  have inside := Nat.le_of_lt more
  cases matched : pattern.matchFrom? strict (Cursor.inside text place) with
  | none =>
      simp only [nextPlace]
      omega
  | some found =>
      rw [← Pattern.matchAt?_ofNat inside] at matched
      obtain ⟨-, -, within, -⟩ :=
        Pattern.matchAt?_located (Pattern.wellFormed_of_compile compiled) inside matched
      simp only [nextPlace]
      split <;> omega

theorem findFrom_inside {text : Bytes} {place : Nat} (more : place < text.length) :
    pattern.findFrom (Cursor.inside text place) =
      (pattern.matchFrom? false (Cursor.inside text place)).toList ++
        pattern.findFrom (Cursor.inside text
          (nextPlace text place (pattern.matchFrom? false (Cursor.inside text place)))) := by
  have remains : (Cursor.inside text place).rest ≠ [] := Bytes.drop_ne_nil more
  have inside := Nat.le_of_lt more
  rw [Pattern.findFrom, if_neg remains]
  cases matched : pattern.matchFrom? false (Cursor.inside text place) with
  | none =>
      simp only [Cursor.inside_advance]
      rfl
  | some found =>
      rw [← Pattern.matchAt?_ofNat inside] at matched
      obtain ⟨-, ordered, within, rest⟩ :=
        Pattern.matchAt?_located (Pattern.wellFormed_of_compile compiled) inside matched
      have consumed : found.rest.length < (Cursor.inside text place).rest.length ↔
          place < found.stop :=
        Match.consumed_iff within rest place
      dsimp only [nextPlace]
      by_cases longer : place < found.stop
      · rw [if_pos (consumed.mpr longer), if_pos longer, rest,
          Cursor.inside_moveTo_drop ordered within]
        rfl
      · rw [if_neg (mt consumed.mp longer), if_neg longer, Cursor.inside_advance]
        rfl

/-- Searching reads nothing outside of the text. -/
theorem findFrom_eq {text : Bytes} {place : Nat} (inside : place ≤ text.length) :
    findFrom pattern text place = pure (pattern.findFrom (Cursor.inside text place)) := by
  induction remaining : text.length - place using Nat.strongRecOn generalizing place with
  | _ remaining ih =>
      by_cases more : place < text.length
      · obtain ⟨later, within⟩ := nextPlace_bounds compiled false more
        rw [findFrom, if_pos (by omega), matchAt_inside compiled false inside, pure_bind,
          onward_eq more, pure_bind, goOn_eq (by omega) (by omega), ih _ (by omega) within rfl,
          pure_bind, findFrom_inside compiled more]
      · have ended : (Cursor.inside text place).rest = [] :=
          List.drop_eq_nil_of_le (Nat.le_of_not_lt more)
        rw [findFrom, if_neg (by omega), Pattern.findFrom, if_pos ended]

theorem matchAt?_of_mem_findFrom {text : Bytes} {place : Nat} (inside : place ≤ text.length)
    {found : Match} (member : found ∈ pattern.findFrom (Cursor.inside text place)) :
    ∃ start : Nat, pattern.matchAt? false text start = some found := by
  induction remaining : text.length - place using Nat.strongRecOn generalizing place with
  | _ remaining ih =>
      by_cases more : place < text.length
      · obtain ⟨later, within⟩ := nextPlace_bounds compiled false more
        rw [findFrom_inside compiled more, List.mem_append, Option.mem_toList] at member
        rcases member with here | behind
        · exact ⟨place, (Pattern.matchAt?_ofNat inside).trans here⟩
        · exact ih _ (by omega) within behind rfl
      · have ended : (Cursor.inside text place).rest = [] :=
          List.drop_eq_nil_of_le (Nat.le_of_not_lt more)
        rw [Pattern.findFrom, if_pos ended] at member
        cases member

end Matches

section Captures

variable {text : Bytes} {start : Int} {found : Match} (lies : found.Lies text start)

include lies

theorem textOf_eq : textOf text found = pure found.matched.text :=
  resolve_eq lies.stands lies.inside

theorem resolve_value {capture : Capture} (member : capture ∈ found.captures) :
    resolve capture.value text = pure capture.value.text := by
  have value := (lies.captures capture member).value
  exact resolve_eq value.stands (Nat.le_trans value.upper lies.inside)

theorem resolve_parts {capture : Capture} (member : capture ∈ found.captures)
    {parts : List Slice} (captured : parts ∈ capture.parts) :
    parts.mapM (resolve · text) = pure (parts.map (·.text)) := by
  have inside : ∀ part ∈ parts, resolve part text = pure part.text := by
    intro part listed
    have own := lies.captures capture member
    have part_lies := own.parts parts captured part listed
    exact resolve_eq part_lies.stands
      (Nat.le_trans part_lies.upper (Nat.le_trans own.value.upper lies.inside))
  clear captured
  induction parts with
  | nil => rfl
  | cons part parts ih =>
      rw [List.mapM_cons, inside part List.mem_cons_self, pure_bind,
        ih fun other listed => inside other (List.mem_cons_of_mem _ listed), pure_bind]
      rfl

theorem lookupIn_eq (name : Bytes) : lookupIn text found name = pure (found.lookup? name) := by
  unfold lookupIn Match.lookup?
  cases captured : found.capture? name with
  | none => rfl
  | some capture =>
      simp only [resolve_value lies (List.mem_of_find?_eq_some captured), pure_bind]
      rfl

theorem partsIn_eq (name : Bytes) : partsIn text found name = pure (found.parts? name) := by
  unfold partsIn Match.parts?
  cases captured : found.capture? name with
  | none => rfl
  | some capture =>
      have member := List.mem_of_find?_eq_some captured
      cases sequence : capture.parts with
      | some parts => simp only [sequence, resolve_parts lies member sequence, pure_bind]
      | none =>
          simp only [sequence, resolve_value lies member, pure_bind, Slice.length]
          cases capture.value.text with
          | nil => rfl
          | cons b tail => rfl

end Captures

end Stencil.Checked
