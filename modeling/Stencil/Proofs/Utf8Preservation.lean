import Stencil.Declaration
import Stencil.Proofs.CharBoundary
import Stencil.Proofs.PrefilterRefinement

/-!
# Well-formed text stays well-formed

Rules, marks and a text that are well-formed UTF-8 lead to well-formed output.
The readers move byte by byte, so the text that is left to read may begin inside
a character; the lemmas about them speak of what was passed and what is left
together.
-/

namespace Stencil

open Utf8

/-- The marks are well-formed. -/
structure Symbols.ValidTexts (symbols : Symbols) : Prop where
  sigil : Utf8.Valid symbols.sigil
  opener : Utf8.Valid symbols.opener
  closer : Utf8.Valid symbols.closer

theorem Symbols.ValidTexts.orStandard {symbols : Symbols} (texts : symbols.ValidTexts) :
    symbols.orStandard.ValidTexts := by
  unfold Symbols.orStandard
  split
  · exact ⟨⟨['$'], by decide⟩, ⟨['\x7b'], by decide⟩, ⟨['\x7d'], by decide⟩⟩
  · exact texts

namespace Pattern

theorem literalRun_aligned {sigil : Bytes} (sigilValid : Valid sigil) (nonempty : sigil ≠ [])
    (text : Bytes) : Aligned (literalRun sigil text).2 := by
  fun_induction literalRun sigil text with
  | case1 => exact valid_nil.aligned
  | case2 b text stops =>
      rcases Bool.or_eq_true _ _ ▸ stops with space | begins
      · intro first here
        cases here
        exact isContinuation_of_ascii (ascii_of_isSpace space)
      · exact sigilValid.aligned.of_occurs nonempty (List.isPrefixOf_iff_prefix.mp begins)
  | case3 b text _ run rest split ih =>
      rw [split] at ih
      exact ih

section Compile

variable {symbols : Symbols} (valid : symbols.Valid) (texts : symbols.ValidTexts)

include valid texts

theorem group?_valid {cursor rest : Cursor} {slice : Slice} (behind : Valid cursor.rest)
    (found : group? symbols cursor = some (slice, rest)) :
    Valid slice.text ∧ Valid rest.rest := by
  unfold group? at found
  split at found
  · next opens =>
      have inside := behind.drop_prefix texts.opener (List.isPrefixOf_iff_prefix.mp opens)
      have whole := groupInside_append symbols.closer (cursor.rest.drop symbols.opener.length)
      have ended := groupInside_rest symbols.closer (cursor.rest.drop symbols.opener.length)
      obtain ⟨inner, rest, parts⟩ : ∃ inner rest,
          groupInside symbols.closer (cursor.rest.drop symbols.opener.length) = (inner, rest) :=
        ⟨_, _, rfl⟩
      cases found
      simp only [Cursor.advance, Cursor.moveTo, Cursor.sliceTo, parts] at whole ended ⊢
      rw [← whole] at inside ⊢
      have aligned : Aligned rest := by
        rcases ended with rfl | closes
        · exact valid_nil.aligned
        · exact texts.closer.aligned.of_occurs valid.closer closes
      obtain ⟨innerValid, restValid⟩ := inside.split aligned
      constructor
      · simpa using innerValid
      · split
        · exact restValid
        · next unfinished =>
            rcases ended with rfl | closes
            · exact (unfinished rfl).elim
            · exact restValid.drop_prefix texts.closer closes
  · cases found

theorem delimiters?_valid {cursor rest : Cursor} {delimiters : Delimiters}
    (behind : Valid cursor.rest)
    (found : delimiters? symbols cursor = some (delimiters, rest)) :
    Valid delimiters.opener ∧ Valid delimiters.closer ∧ Valid rest.rest := by
  unfold delimiters? at found
  obtain ⟨⟨first, afterFirst⟩, opened, pair⟩ := Option.map_eq_some_iff.mp found
  obtain ⟨firstValid, afterValid⟩ := group?_valid valid texts behind opened
  have chosen : ∀ {slice : Slice} {standard : Bytes}, Valid slice.text → Valid standard →
      Valid (if slice.text.isEmpty then standard else slice.text) := by
    intro slice standard written usual
    split
    · exact usual
    · exact written
  cases second : group? symbols afterFirst with
  | none =>
      simp only [second, Prod.mk.injEq] at pair
      obtain ⟨rfl, rfl⟩ := pair
      exact ⟨chosen firstValid texts.opener, texts.closer, afterValid⟩
  | some both =>
      obtain ⟨slice, afterSecond⟩ := both
      obtain ⟨secondValid, restValid⟩ := group?_valid valid texts afterValid second
      simp only [second, Prod.mk.injEq] at pair
      obtain ⟨rfl, rfl⟩ := pair
      exact ⟨chosen firstValid texts.opener, chosen secondValid texts.closer, restValid⟩

omit valid texts in
theorem reference_valid {cursor : Cursor} (behind : Valid cursor.rest) :
    Valid (reference cursor).2.rest := by
  have named := (behind.span fun _ => ascii_of_isIdent).2
  simp only [reference]
  split
  · next marked =>
      simp only [Cursor.moveTo, Cursor.advance] at marked ⊢
      cases rest : cursor.rest.dropWhile Bytes.isIdent with
      | nil => exact valid_nil
      | cons b rest' =>
          rw [rest] at marked named
          cases marked
          have mark : Valid [byte '?'] := ⟨['?'], by decide⟩
          exact named.of_append_left mark
  · exact named

theorem element_valid {cursor : Cursor} (behind : Valid cursor.rest) (text : Slice) :
    Token.ValidTexts ⟨text, (element symbols cursor).1, {}⟩ ∧
      Valid (element symbols cursor).2.rest := by
  rcases element_cases symbols cursor with
    ⟨start, delimiters, afterGroups, begins, found, rest, block⟩ | named
  · have startValid : Valid start.rest := by
      rcases begins with rfl | ⟨doubled, rfl⟩
      · exact behind
      · exact behind.drop_prefix texts.sigil doubled
    obtain ⟨opener, closer, groups⟩ := delimiters?_valid valid texts startValid found
    rw [rest]
    refine ⟨?_, reference_valid groups⟩
    rcases block with block | blocks
    · simp only [Token.ValidTexts, block]
      exact ⟨opener, closer⟩
    · simp only [Token.ValidTexts, blocks]
      exact ⟨opener, closer⟩
  · rw [named]
    exact ⟨trivial, reference_valid behind⟩

theorem tokensFrom_valid (offset : Nat) {text : Bytes} (textValid : Valid text) :
    ∀ token ∈ tokensFrom symbols offset text, token.ValidTexts := by
  fun_induction tokensFrom symbols offset text with
  | case1 => simp
  | case2 offset b tail blank run ih =>
      intro token member
      rcases List.mem_cons.mp member with rfl | later
      · trivial
      · have rest := (textValid.span fun _ => ascii_of_isSpace).2
        rw [List.dropWhile_cons_of_pos blank] at rest
        exact ih rest token later
  | case3 offset b tail notBlank begins read ih =>
      rw [cons_eq_append_drop valid.sigil begins] at textValid
      have behind : Valid (Cursor.mk (offset + symbols.sigil.length)
          (tail.drop (symbols.sigil.length - 1))).rest :=
        textValid.of_append_left texts.sigil
      obtain ⟨own, rest⟩ := element_valid valid texts behind _
      intro token member
      rcases List.mem_cons.mp member with rfl | later
      · exact own
      · exact ih rest token later
  | case4 offset b tail notBlank noSigil run ih =>
      have aligned := literalRun_aligned texts.sigil valid.sigil tail
      have whole := literalRun_append symbols.sigil tail
      have split : run ++ (literalRun symbols.sigil tail).2 = b :: tail := by
        rw [List.cons_append, whole]
      obtain ⟨own, rest⟩ := (split ▸ textValid).split aligned
      intro token member
      rcases List.mem_cons.mp member with rfl | later
      · exact own
      · exact ih rest token later

end Compile

/-- A pattern whose tokens look for well-formed texts only finds matches that
begin and end between characters. -/
theorem matchAt?_valid {pattern : Pattern}
    (wellFormed : ∀ token ∈ pattern.tokens, token.WellFormed)
    (texts : ∀ token ∈ pattern.tokens, token.ValidTexts) {strict : Bool} {text : Bytes}
    {place : Nat} (inside : place ≤ text.length) (textValid : Valid text)
    (first : Boundary text place) {found : Match}
    (matched : pattern.matchAt? strict text place = some found) : found.Valid text := by
  rw [matchAt?_ofNat inside] at matched
  obtain ⟨shares, stop, reading, rfl⟩ := (matchFrom?_eq_some_iff wellFormed inside).mp matched
  obtain ⟨last, captures⟩ := reading.valid textValid wellFormed texts first
  refine ⟨first, ?_, captures⟩
  rw [matchOf_stop reading]
  exact last

end Pattern

/-- A template is expanded into well-formed text, given what stands in front of
it. -/
theorem Template.pieces_valid {sigil : Bytes} (sigilValid : Valid sigil)
    (nonempty : sigil ≠ []) {found : Match}
    (captures : ∀ capture ∈ found.captures, capture.Valid) {before template : Bytes}
    (valid : Valid (before ++ template)) :
    Valid (before ++ (pieces sigil template).flatMap (Piece.expand sigil found)) := by
  have values : ∀ name, (∀ b ∈ name, Bytes.isIdent b = true) →
      Valid (Piece.expand sigil found (.reference name)) := by
    intro name ident
    simp only [Piece.expand, Match.lookup?, Match.capture?]
    cases looked : found.captures.find? fun capture => capture.name == name with
    | none =>
        exact sigilValid.append (valid_of_ascii fun b member => ascii_of_isIdent (ident b member))
    | some capture => exact (captures capture (List.mem_of_find?_eq_some looked)).1
  fun_induction pieces sigil template generalizing before with
  | case1 => exact valid
  | case2 b tail begins behind =>
      rename_i ih
      rw [cons_eq_append_drop nonempty begins] at valid
      obtain ⟨passed, rest⟩ := valid.split
        (sigilValid.aligned.of_occurs nonempty (List.prefix_append _ _))
      have later := (rest.of_append_left sigilValid).span fun _ => ascii_of_isIdent
      rw [List.flatMap_cons]
      apply passed.append
      apply Valid.append
      · exact values _ fun b member => List.all_eq_true.mp List.all_takeWhile b member
      · exact @ih [] later.2
  | case3 b tail _ text later split ih =>
      -- the byte joins the text behind it; alone it need not be a character
      rw [List.append_cons] at valid
      have rest := ih valid
      rw [split] at rest
      simpa [Piece.expand] using rest
  | case4 b tail _ separate ih =>
      rw [List.append_cons] at valid
      simpa [Piece.expand] using ih valid

theorem Template.expand_valid {sigil template : Bytes} (sigilValid : Valid sigil)
    (valid : Valid template) {found : Match}
    (captures : ∀ capture ∈ found.captures, capture.Valid) :
    Valid (expand sigil template found) := by
  unfold expand
  split
  · exact valid
  · next written => exact @pieces_valid _ sigilValid (by simpa using written) _ captures [] _ valid

/-- The match a segment was made for. -/
def Segment.found? : Segment → Option Match
  | .copied _ => none
  | .replaced _ found _ | .inserted _ found _ _ => some found

namespace Engine

/-- All texts that the rules look for and put out are well-formed. -/
structure ValidTexts (engine : Engine) : Prop where
  sigil : Valid engine.options.symbols.sigil
  tokens : ∀ compiled ∈ engine.rules, ∀ token ∈ compiled.pattern.tokens, token.ValidTexts
  replacements : ∀ compiled ∈ engine.rules, Valid compiled.rule.replacement

theorem validTexts_of_compile {rules : List Rule} {options : Options} {engine : Engine}
    (compiled : compile rules options = .ok engine) (marks : options.symbols.ValidTexts)
    (texts : ∀ rule ∈ rules, Valid rule.pattern ∧ Valid rule.replacement) :
    engine.ValidTexts := by
  obtain ⟨valid, rfl⟩ := compile_eq_ok_iff.mp compiled
  have marks : options.normalized.symbols.ValidTexts := marks.orStandard
  constructor
  · exact marks.sigil
  · intro compiled listed token member
    obtain ⟨rule, given, rfl⟩ := List.mem_map.mp listed
    obtain ⟨original, originalMember, text, element⟩ := Token.exists_of_mem_link member
    have own := Pattern.tokensFrom_valid valid marks 0 (texts rule given).1 original
      originalMember
    simpa only [Token.ValidTexts, text, element] using own
  · intro compiled listed
    obtain ⟨rule, given, rfl⟩ := List.mem_map.mp listed
    exact (texts rule given).2

section Scan

variable {engine : Engine} {text : Bytes}

theorem ValidTexts.aligned (texts : engine.ValidTexts) :
    ∀ compiled ∈ engine.rules, ∀ anchor ∈ compiled.pattern.anchor?, Aligned anchor := by
  intro compiled listed anchor begins
  unfold Pattern.anchor? at begins
  split at begins
  · cases begins
  next token later tokens =>
    split at begins
    · cases begins
    · exact ((texts.tokens compiled listed token (by simp [tokens])).opening begins).aligned

/-- One turn of the scan leads from one boundary to the next. -/
theorem Cuts.valid {place behind : Nat} {segment : Segment}
    (cuts : engine.Cuts text place segment behind) (wellFormed : engine.WellFormed)
    (texts : engine.ValidTexts) (textValid : Valid text) (first : Boundary text place) :
    Boundary text behind ∧ Valid segment.output ∧
      ∀ found ∈ segment.found?, found.Valid text := by
  have inside := cuts.inside
  -- both kinds of match share one argument, and so do both kinds of copy
  have winner : ∀ {index : Nat} {compiled : CompiledRule} {found : Match},
      engine.Wins text place index compiled found →
        found.Valid text ∧ Valid (Template.expand engine.options.symbols.sigil
          compiled.rule.replacement found) := by
    intro index compiled found wins
    have listed := List.mem_of_getElem? wins.listed
    have matched := Pattern.matchAt?_valid (wellFormed compiled listed)
      (texts.tokens compiled listed) (Nat.le_of_lt inside) textValid first wins.matched
    exact ⟨matched,
      Template.expand_valid texts.sigil (texts.replacements compiled listed) matched.captures⟩
  have character : ∀ {char : Bytes}, First char (text.drop place) →
      Valid char ∧ Boundary text (place + char.length) := by
    intro char isFirst
    obtain ⟨charValid, rest⟩ := first.2.first
    rw [← (first_iff (Bytes.drop_ne_nil inside)).mp isFirst] at charValid
    obtain ⟨behind, split⟩ := isFirst.1
    have later := split ▸ first.2
    refine ⟨charValid, boundary_of_drop textValid ?_⟩
    rw [← (Bytes.drop_eq_append split.symm).2]
    exact later.of_append_left charValid
  cases cuts with
  | copied _ _ isFirst =>
      obtain ⟨charValid, next⟩ := character isFirst
      exact ⟨next, charValid, by simp [Segment.found?]⟩
  | replaced _ wins _ =>
      obtain ⟨matched, expanded⟩ := winner wins
      refine ⟨matched.stop, expanded, ?_⟩
      rintro found ⟨⟩
      exact matched
  | inserted _ wins _ isFirst =>
      obtain ⟨matched, expanded⟩ := winner wins
      obtain ⟨charValid, next⟩ := character isFirst
      refine ⟨next, expanded.append charValid, ?_⟩
      rintro found ⟨⟩
      exact matched

theorem Scans.valid {place : Nat} {segments : List Segment}
    (scans : engine.Scans text place segments) (wellFormed : engine.WellFormed)
    (texts : engine.ValidTexts) (textValid : Valid text) (first : Boundary text place) :
    ∀ segment ∈ segments, Valid segment.output ∧ ∀ found ∈ segment.found?, found.Valid text := by
  induction scans with
  | done => simp
  | cut cuts _ ih =>
      obtain ⟨behind, own⟩ := cuts.valid wellFormed texts textValid first
      intro segment member
      rcases List.mem_cons.mp member with rfl | later
      · exact own
      · exact ih behind segment later

end Scan

/-- Every match is made between characters, and the output is well-formed. -/
theorem segmentsWith_valid {find : Anchor.Search} (lawful : find.Lawful) {rules : List Rule}
    {options : Options} {engine : Engine} (compiled : compile rules options = .ok engine)
    (marks : options.symbols.ValidTexts)
    (texts : ∀ rule ∈ rules, Valid rule.pattern ∧ Valid rule.replacement) {text : Bytes}
    (textValid : Valid text) :
    (∀ segment ∈ engine.segmentsWith find text, ∀ found ∈ segment.found?, found.Valid text) ∧
      Valid (outputOf (engine.segmentsWith find text)) := by
  have wellFormed := wellFormed_of_compile compiled
  have engineTexts := validTexts_of_compile compiled marks texts
  have joins := segmentsWith_joins lawful compiled engineTexts.aligned text
  have each := (scans_segmentsFrom wellFormed (Nat.zero_le text.length)).valid wellFormed
    engineTexts textValid (boundary_zero textValid)
  constructor
  · intro segment member found made
    have listed : found ∈ (engine.segmentsWith find text).filterMap Segment.found? :=
      List.mem_filterMap.mpr ⟨segment, member, made⟩
    rw [joins.filterMap_eq fun _ => rfl] at listed
    obtain ⟨other, otherMember, otherMade⟩ := List.mem_filterMap.mp listed
    exact (each other otherMember).2 found otherMade
  · rw [joins.outputOf_eq]
    exact valid_flatMap fun segment member => (each segment member).1

end Engine

namespace Declaration

section Collect

variable {keyword : Bytes} {symbols : Symbols} (valid : symbols.Valid)
  (marks : symbols.ValidTexts)

include valid marks

theorem blockOrNothing_valid {text : Bytes} (textValid : Valid text) :
    Valid (blockOrNothing symbols text).1 ∧ Valid (blockOrNothing symbols text).2 := by
  unfold blockOrNothing
  split
  · next block found =>
      exact Block.read?_valid marks.opener marks.closer valid.closer textValid found
  · exact ⟨valid_nil, textValid⟩

theorem blocks?_valid {text pattern rest : Bytes} {replacement : Option Bytes}
    (keywordValid : Valid keyword) (begins : keyword <+: text) (textValid : Valid text)
    (found : blocks? keyword symbols text = some (pattern, replacement, rest)) :
    Valid pattern ∧ (∀ written ∈ replacement, Valid written) ∧ Valid rest := by
  have behind := ((textValid.drop_prefix keywordValid begins).span fun _ => ascii_of_isSpace).2
  obtain ⟨firstInner, firstRest⟩ := blockOrNothing_valid valid marks behind
  have second := (firstRest.span fun _ => ascii_of_isSpace).2
  obtain ⟨secondInner, secondRest⟩ := blockOrNothing_valid valid marks second
  simp only [blocks?] at found
  split at found
  · split at found
    · cases found
      refine ⟨firstInner, ?_, secondRest⟩
      rintro written ⟨⟩
      exact secondInner
    · cases found
      refine ⟨firstInner, ?_, firstRest⟩
      rintro written ⟨⟩
  · cases found

/-- The texts of a declaration are well-formed. -/
def Piece.ValidTexts : Piece → Prop
  | .kept _ => True
  | .declared declaration =>
      Valid declaration.pattern ∧ ∀ written ∈ declaration.replacement, Valid written

/-- Taking the declarations out of a text keeps it well-formed, given what was
passed before. -/
theorem piecesFrom_valid (keywordValid : Valid keyword) (nonempty : keyword ≠ [])
    (before : Option UInt8) {passed text : Bytes} (textValid : Valid (passed ++ text)) :
    Valid (passed ++ restOf (piecesFrom keyword symbols before text)) ∧
      ∀ piece ∈ piecesFrom keyword symbols before text, piece.ValidTexts := by
  fun_induction piecesFrom keyword symbols before text generalizing passed with
  | case1 => exact ⟨textValid, by simp⟩
  | case2 before text _ _ => exact ⟨by simpa [restOf] using textValid, by simp [Piece.ValidTexts]⟩
  | case3 before text _ gap found split _ previous undeclared =>
      rename_i ih
      -- the byte that is kept here may be the first one of a longer character
      have whole : passed ++ text = (passed ++ gap ++ found.take 1) ++ found.tail := by
        rw [(Bytes.splitAtFirst_eq_some split).1, ← List.drop_one]
        simp only [List.append_assoc, List.take_append_drop]
      rw [whole] at textValid
      obtain ⟨rest, declared⟩ := ih textValid
      refine ⟨by simpa [restOf] using rest, ?_⟩
      intro piece member
      rcases List.mem_cons.mp member with rfl | later
      · trivial
      · exact declared piece later
  | case4 before text _ gap found split _ previous pattern replacement rest read own shorter =>
      rename_i ih
      obtain ⟨whole, begins⟩ := Bytes.splitAtFirst_eq_some split
      rw [whole, ← List.append_assoc] at textValid
      obtain ⟨passedValid, foundValid⟩ := textValid.split
        (keywordValid.aligned.of_occurs nonempty begins)
      split at read
      · cases read
      obtain ⟨patternValid, replacementValid, restValid⟩ :=
        blocks?_valid valid marks keywordValid begins foundValid read
      obtain ⟨later, declared⟩ := @ih [] restValid
      refine ⟨by simpa [restOf] using passedValid.append later, ?_⟩
      intro piece member
      rcases List.mem_cons.mp member with rfl | member
      · trivial
      rcases List.mem_cons.mp member with rfl | member
      · exact ⟨patternValid, replacementValid⟩
      · exact declared piece member
  | case5 => exact ⟨by simpa [restOf] using textValid, by simp [Piece.ValidTexts]⟩

omit valid marks in
theorem meaning?_valid {declaration : Declaration} {pattern replacement : Bytes}
    (texts : (Piece.declared declaration).ValidTexts)
    (meaning : declaration.meaning? = some (pattern, replacement)) :
    Valid pattern ∧ Valid replacement := by
  unfold meaning? at meaning
  split at meaning
  · cases meaning
  next written given =>
    split at meaning
    · cases meaning
    · cases meaning
      exact ⟨texts.1.trim, (texts.2 written given).trim⟩

theorem collect_valid (keywordValid : Valid keyword) (nonempty : keyword ≠ []) {text : Bytes}
    (textValid : Valid text) :
    (∀ rule ∈ (collect keyword symbols text).1, Valid rule.pattern ∧ Valid rule.replacement) ∧
      Valid (collect keyword symbols text).2 := by
  obtain ⟨rest, declared⟩ :=
    @piecesFrom_valid _ _ valid marks keywordValid nonempty none [] _ textValid
  refine ⟨?_, rest⟩
  intro rule member
  obtain ⟨i, inside, rfl⟩ := List.mem_mapIdx.mp member
  obtain ⟨piece, listed, meaning⟩ := List.mem_filterMap.mp (List.getElem_mem inside)
  cases piece with
  | kept text => cases meaning
  | declared declaration => exact meaning?_valid (declared _ listed) meaning

end Collect

end Declaration

theorem Symbols.Valid.orStandard {symbols : Symbols} (valid : symbols.Valid) :
    symbols.orStandard.Valid := by
  unfold Symbols.orStandard
  split
  · exact ⟨by decide, by decide, by decide⟩
  · exact valid

/-- Passes end with well-formed text when they begin with it. -/
theorem inlinePasses_valid {keyword : Bytes} (keywordValid : Valid keyword)
    (nonempty : keyword ≠ []) {options : Options} (valid : options.symbols.Valid)
    (marks : options.symbols.ValidTexts) (passes : Nat) {text : Bytes} (textValid : Valid text) :
    ∃ output, inlinePasses keyword options passes text = .ok output ∧ Valid output := by
  induction passes generalizing text with
  | zero => exact ⟨text, rfl, textValid⟩
  | succ passes ih =>
      obtain ⟨texts, restValid⟩ :=
        Declaration.collect_valid valid marks keywordValid nonempty textValid
      obtain ⟨rules, rest, collected⟩ : ∃ rules rest,
          Declaration.collect keyword options.symbols text = (rules, rest) := ⟨_, _, rfl⟩
      rw [collected] at texts restValid
      cases rules with
      | nil => exact ⟨rest, by simp [inlinePasses, collected], restValid⟩
      | cons rule rules =>
          obtain ⟨engine, compiled⟩ :=
            Engine.exists_compile valid.orStandard (rule :: rules)
          have processed := (Engine.segmentsWith_valid Anchor.firstEnd?_lawful compiled marks
            texts restValid).2
          obtain ⟨output, passed, outputValid⟩ := ih processed
          refine ⟨output, ?_, outputValid⟩
          simp only [inlinePasses, collected, compiled]
          exact passed

/-- Well-formed rules, marks and texts: every match is made between characters,
captures are well-formed, and so is the output, also when the text declares the
rules itself. -/
theorem process_preserves_utf8 {find : Anchor.Search} (lawful : find.Lawful) (options : Options)
    (usable : options.normalized.symbols.Valid) (marks : options.symbols.ValidTexts) :
    (∀ rules : List Rule, (∀ rule ∈ rules, Valid rule.pattern ∧ Valid rule.replacement) →
      ∃ engine, Engine.compile rules options = .ok engine ∧
        ∀ text, Valid text →
          (∀ segment ∈ engine.segmentsWith find text, ∀ found ∈ segment.found?,
            found.Valid text) ∧
          Valid (engine.processStatsWith find text).1 ∧ Valid (engine.process text)) ∧
    ∀ (keyword : Bytes) (passes : Int) (text : Bytes), Valid keyword → Valid text →
      ∃ output, processInline text ⟨options, keyword, passes⟩ = .ok output ∧ Valid output := by
  constructor
  · intro rules texts
    obtain ⟨engine, compiled⟩ := Engine.exists_compile usable rules
    refine ⟨engine, compiled, ?_⟩
    intro text textValid
    obtain ⟨matched, output⟩ := Engine.segmentsWith_valid lawful compiled marks texts textValid
    exact ⟨matched, output,
      (Engine.segmentsWith_valid Anchor.firstEnd?_lawful compiled marks texts textValid).2⟩
  · intro keyword passes text keywordValid textValid
    unfold processInline
    simp only [InlineOptions.normalized, Symbols.fault?_eq_none_iff.mpr usable]
    apply inlinePasses_valid _ _ usable marks.orStandard _ textValid
    · split
      · exact ⟨['p', 'a', 't', 't', 'e', 'r', 'n'], by decide⟩
      · exact keywordValid
    · split
      · exact List.cons_ne_nil _ _
      · next written => simpa using written

/-- Marks of two bytes each: the rule `é§«»x` unwraps `é«ü»`, and the text
`pattern«a»«é»a` rewrites its own last letter. -/
theorem process_preserves_utf8_wide_marks :
    ∃ engine,
      Engine.compile
          [⟨[], [0xC3, 0xA9, 0xC2, 0xA7, 0xC2, 0xAB, 0xC2, 0xBB, 0x78], [0xC2, 0xA7, 0x78]⟩]
          { symbols := ⟨[0xC2, 0xA7], [0xC2, 0xAB], [0xC2, 0xBB]⟩, strictBlocks := true } =
        .ok engine ∧
        engine.process [0x61, 0xC3, 0xA9, 0xC2, 0xAB, 0xC3, 0xBC, 0xC2, 0xBB] =
          [0x61, 0xC3, 0xBC] ∧
        Valid (engine.process [0x61, 0xC3, 0xA9, 0xC2, 0xAB, 0xC3, 0xBC, 0xC2, 0xBB]) ∧
        ∃ output,
          processInline
              ([0x70, 0x61, 0x74, 0x74, 0x65, 0x72, 0x6E, 0xC2, 0xAB, 0x61, 0xC2, 0xBB] ++
                [0xC2, 0xAB, 0xC3, 0xA9, 0xC2, 0xBB, 0x61])
              ⟨{ symbols := ⟨[0xC2, 0xA7], [0xC2, 0xAB], [0xC2, 0xBB]⟩, strictBlocks := true },
                [], 0⟩ = .ok output ∧
            Valid output := by
  obtain ⟨engines, inline⟩ := process_preserves_utf8 Anchor.firstEnd?_lawful
    { symbols := ⟨[0xC2, 0xA7], [0xC2, 0xAB], [0xC2, 0xBB]⟩, strictBlocks := true }
    (Symbols.fault?_eq_none_iff.mp (by decide))
    ⟨⟨['§'], by decide⟩, ⟨['«'], by decide⟩, ⟨['»'], by decide⟩⟩
  obtain ⟨engine, compiled, processed⟩ := engines
    [⟨[], [0xC3, 0xA9, 0xC2, 0xA7, 0xC2, 0xAB, 0xC2, 0xBB, 0x78], [0xC2, 0xA7, 0x78]⟩]
    (List.forall_mem_singleton.mpr
      ⟨⟨['é', '§', '«', '»', 'x'], by decide⟩, ⟨['§', 'x'], by decide⟩⟩)
  refine ⟨engine, compiled, ?_, (processed _ ⟨['a', 'é', '«', 'ü', '»'], by decide⟩).2.2,
    inline [] 0 _ valid_nil
      ⟨['p', 'a', 't', 't', 'e', 'r', 'n', '«', 'a', '»', '«', 'é', '»', 'a'], by decide⟩⟩
  rw [(Engine.compile_eq_ok_iff.mp compiled).2]
  decide +kernel

end Stencil
