import Stencil.Proofs.Engine

/-!
# Strict and lenient blocks

A block without its closer fails a strict match and takes the rest of the text in
a lenient one.  So a strict match is also the lenient one, and a lenient match
that is not strict ends where the text ends.  Two scans that differ in nothing
but strictness part only behind a lenient match of that kind, although from there
on different rules may win.
-/

namespace Stencil

/-- The strict result is the lenient one, or there is none and the lenient one is
`final`. -/
def Stricter {α : Type} (final : α → Prop) (strict lenient : Option α) : Prop :=
  strict = lenient ∨ strict = none ∧ ∀ result ∈ lenient, final result

namespace Stricter

variable {α β : Type} {final : α → Prop} {strict lenient : Option α}

theorem map {final' : β → Prop} {f : α → β} (stricter : Stricter final strict lenient)
    (kept : ∀ result, final result → final' (f result)) :
    Stricter final' (strict.map f) (lenient.map f) := by
  rcases stricter with rfl | ⟨rfl, ends⟩
  · exact .inl rfl
  · refine .inr ⟨rfl, ?_⟩
    intro mapped member
    obtain ⟨result, found, rfl⟩ := Option.map_eq_some_iff.mp member
    exact kept result (ends result found)

theorem eq_some (stricter : Stricter final strict lenient) {result : α}
    (found : strict = some result) : lenient = some result := by
  rcases stricter with same | ⟨missing, _⟩
  · rw [← same, found]
  · rw [found] at missing
    cases missing

theorem final_of_none (stricter : Stricter final strict lenient) {result : α}
    (found : lenient = some result) (missing : strict = none) : final result := by
  rcases stricter with same | ⟨_, ends⟩
  · rw [missing, found] at same
    cases same
  · exact ends result found

end Stricter

namespace Token

theorem blockRun_suffix (strict : Bool) (opener closer : Bytes) (cursor : Cursor) :
    ∀ run ∈ blockRun strict opener closer cursor, run.2.rest <:+ cursor.rest := by
  fun_induction blockRun strict opener closer cursor with
  | case1 cursor absent =>
      intro run read
      cases read
      exact List.suffix_refl _
  | case2 cursor block found _ inner behind closed again ih =>
      intro run read
      obtain ⟨later, ran, rfl⟩ := Option.map_eq_some_iff.mp read
      exact ((ih later ran).trans (List.dropWhile_suffix _)).trans (Block.read?_suffix found)
  | case3 cursor block found =>
      intro run read
      cases read
      exact Block.read?_suffix found
  | case4 =>
      intro run read
      cases read
  | case5 cursor block found =>
      intro run read
      cases read
      exact Block.read?_suffix found

/-- A token never moves the cursor back. -/
theorem step?_suffix {strict afterSpace skipped : Bool} {later : List Token} {token : Token}
    {cursor : Cursor} {step : Step}
    (stepped : step? strict afterSpace skipped later token cursor = some step) :
    step.cursor.rest <:+ cursor.rest := by
  cases element : token.element with
  | space =>
      simp only [step?, element] at stepped
      split at stepped
      · cases stepped
        exact List.dropWhile_suffix _
      split at stepped
      · cases stepped
        exact List.suffix_refl _
      · cases stepped
  | literal =>
      simp only [step?, element] at stepped
      split at stepped
      · cases stepped
        exact List.drop_suffix _ _
      · cases stepped
  | «variable» reference =>
      have start : (if afterSpace then cursor else cursor.skipSpace).rest <:+ cursor.rest := by
        cases afterSpace
        · exact List.dropWhile_suffix _
        · exact List.suffix_refl _
      simp only [step?, element] at stepped
      generalize (if afterSpace then cursor else cursor.skipSpace) = first at start stepped
      split at stepped
      · cases stepped
      · cases stepped
        exact (List.drop_suffix _ _).trans start
  | block reference delimiters =>
      simp only [step?, element] at stepped
      split at stepped
      · split at stepped
        · cases stepped
          exact List.suffix_refl _
        · cases stepped
      · next block found =>
          split at stepped
          · cases stepped
            exact Block.read?_suffix found
          · cases stepped
  | blocks reference delimiters =>
      simp only [step?, element] at stepped
      split at stepped
      · cases stepped
      · split at stepped
        · cases stepped
          exact List.suffix_refl _
        · cases stepped
      · next inners last _ read =>
          cases stepped
          exact blockRun_suffix _ _ _ _ _ read

theorem run?_suffix {strict afterSpace skipped : Bool} {tokens : List Token} {cursor : Cursor}
    {run : List Capture × Cursor}
    (ran : run? strict afterSpace skipped tokens cursor = some run) :
    run.2.rest <:+ cursor.rest := by
  induction tokens generalizing afterSpace skipped cursor run with
  | nil =>
      cases ran
      exact List.suffix_refl _
  | cons token later ih =>
      rw [run?] at ran
      split at ran
      · cases ran
      next step stepped =>
        obtain ⟨rest, behind, rfl⟩ := Option.map_eq_some_iff.mp ran
        exact (ih behind).trans (step?_suffix stepped)

theorem blockRun_stricter (opener closer : Bytes) (cursor : Cursor) :
    Stricter (fun run => run.1 ≠ [] ∧ run.2.rest = []) (blockRun true opener closer cursor)
      (blockRun false opener closer cursor) := by
  fun_induction blockRun true opener closer cursor with
  | case1 cursor absent => exact .inl (blockRun_none absent).symm
  | case2 cursor block found _ inner behind closed again ih =>
      rw [blockRun_some found, if_pos closed, if_pos again]
      exact ih.map fun run ends => ⟨List.cons_ne_nil _ _, ends.2⟩
  | case3 cursor block found _ inner behind closed alone =>
      rw [blockRun_some found, if_pos closed, if_neg alone]
      exact .inl rfl
  | case4 cursor block found _ unfinished =>
      rw [blockRun_some found, if_neg unfinished, if_neg Bool.false_ne_true]
      refine .inr ⟨rfl, ?_⟩
      intro run member
      cases member
      exact ⟨List.cons_ne_nil _ _, Block.read?_rest_of_open found (by simpa using unfinished)⟩
  | case5 cursor block found _ inner behind unfinished isLenient =>
      exact (isLenient rfl).elim

/-- A strict step fails where the lenient one takes the rest of the text. -/
theorem step?_stricter (afterSpace skipped : Bool) (later : List Token) (token : Token)
    (cursor : Cursor) :
    Stricter (fun step => step.cursor.rest = [])
      (step? true afterSpace skipped later token cursor)
      (step? false afterSpace skipped later token cursor) := by
  cases element : token.element with
  | space => exact .inl (by simp only [step?, element])
  | literal => exact .inl (by simp only [step?, element])
  | «variable» reference => exact .inl (by simp only [step?, element])
  | block reference delimiters =>
      simp only [step?, element]
      cases read : Block.read? delimiters.opener delimiters.closer cursor.rest with
      | none => exact .inl rfl
      | some block =>
          cases closed : block.closed with
          | true => exact .inl (by simp [closed])
          | false =>
              refine .inr ⟨by simp [closed], ?_⟩
              intro step member
              simp only [closed, Bool.not_false, Bool.or_true, if_true] at member
              cases member
              exact Block.read?_rest_of_open read closed
  | blocks reference delimiters =>
      simp only [step?, element]
      rcases blockRun_stricter delimiters.opener delimiters.closer cursor with
        same | ⟨missing, ends⟩
      · rw [same]
        exact .inl rfl
      · rw [missing]
        refine .inr ⟨rfl, ?_⟩
        intro step member
        split at member
        · cases member
        · next read => exact ((ends _ read).1 rfl).elim
        · next read =>
            cases member
            exact (ends _ read).2

theorem run?_stricter (afterSpace skipped : Bool) (tokens : List Token) (cursor : Cursor) :
    Stricter (fun run => run.2.rest = []) (run? true afterSpace skipped tokens cursor)
      (run? false afterSpace skipped tokens cursor) := by
  induction tokens generalizing afterSpace skipped cursor with
  | nil => exact .inl rfl
  | cons token later ih =>
      rw [run?, run?]
      rcases step?_stricter afterSpace skipped later token cursor with same | ⟨missing, ends⟩
      · rw [same]
        cases step? false afterSpace skipped later token cursor with
        | none => exact .inl rfl
        | some step => exact (ih token.isSpace step.skipped step.cursor).map fun _ ends => ends
      · rw [missing]
        refine .inr ⟨rfl, ?_⟩
        intro run member
        split at member
        · cases member
        next step stepped =>
          obtain ⟨rest, ran, rfl⟩ := Option.map_eq_some_iff.mp member
          have nothing := run?_suffix ran
          rw [ends step stepped] at nothing
          exact List.suffix_nil.mp nothing

end Token

/-- The offset at which the text that a cursor points into ends. -/
def Cursor.finish (cursor : Cursor) : Nat :=
  cursor.offset + cursor.rest.length

theorem Cursor.finish_inside {text : Bytes} {place : Nat} (within : place ≤ text.length) :
    (inside text place).finish = text.length := by
  simp only [finish, inside_offset, inside_rest, List.length_drop]
  omega

theorem Cursor.finish_moveTo {cursor : Cursor} {rest : Bytes}
    (shorter : rest.length ≤ cursor.rest.length) : (cursor.moveTo rest).finish = cursor.finish := by
  simp only [finish, moveTo]
  omega

theorem Cursor.finish_advance {cursor : Cursor} {n : Nat} (more : (cursor.advance n).rest ≠ []) :
    (cursor.advance n).finish = cursor.finish := by
  have remaining := List.length_pos_iff.mpr more
  simp only [finish, advance, List.length_drop] at remaining ⊢
  omega

namespace Pattern

theorem matchFrom?_stricter (pattern : Pattern) (cursor : Cursor) :
    Stricter (fun found => found.stop = cursor.finish) (pattern.matchFrom? true cursor)
      (pattern.matchFrom? false cursor) := by
  apply (Token.run?_stricter false false pattern.tokens cursor).map
  intro run ends
  simp [Match.stop, Slice.stop, Slice.length, Cursor.sliceTo, Cursor.finish, ends]

/-- A strict match is the lenient match, and where there is none the lenient
match goes to the end of the text. -/
theorem matchAt?_stricter (pattern : Pattern) (text : Bytes) (place : Int) :
    Stricter (fun found => found.stop = text.length) (pattern.matchAt? true text place)
      (pattern.matchAt? false text place) := by
  cases place with
  | negSucc n => exact .inl rfl
  | ofNat n =>
      by_cases inside : n ≤ text.length
      · have stricter := pattern.matchFrom?_stricter (Cursor.inside text n)
        rw [Cursor.finish_inside inside] at stricter
        simpa only [matchAt?, if_pos inside] using stricter
      · exact .inl (by simp only [matchAt?, if_neg inside])

end Pattern

/-- A match that ends at an offset is among the segments. -/
def Segment.EndMatch (segments : List Segment) (finish : Nat) : Prop :=
  ∃ segment ∈ segments, ∃ found ∈ segment.match?, found.stop = finish

namespace Engine

theorem firstMatch?_stricter (cursor : Cursor) (index : Nat) (rules : List CompiledRule) :
    firstMatch? true cursor index rules = firstMatch? false cursor index rules ∨
      ∃ chosen rule found, firstMatch? false cursor index rules = some (chosen, rule, found) ∧
        found.stop = cursor.finish := by
  induction rules generalizing index with
  | nil => exact .inl rfl
  | cons compiled rules ih =>
      rw [firstMatch?, firstMatch?]
      rcases compiled.pattern.matchFrom?_stricter cursor with same | ⟨missing, ends⟩
      · rw [same]
        cases compiled.pattern.matchFrom? false cursor with
        | some found => exact .inl rfl
        | none => exact ih (index + 1)
      · rw [missing]
        cases matched : compiled.pattern.matchFrom? false cursor with
        | some found => exact .inr ⟨_, _, _, rfl, ends found matched⟩
        | none => exact ih (index + 1)

/-- Two engines that differ in nothing but strictness. -/
structure Counterparts (strict lenient : Engine) : Prop where
  rules : strict.rules = lenient.rules
  symbols : strict.options.symbols = lenient.options.symbols
  anchors : strict.anchors = lenient.anchors
  strict : strict.options.strictBlocks = true
  lenient : lenient.options.strictBlocks = false

namespace Counterparts

variable {strict lenient : Engine}

theorem segmentAt_eq (counterparts : Counterparts strict lenient) (cursor : Cursor) :
    strict.segmentAt cursor = lenient.segmentAt cursor ∨
      ∃ found ∈ (lenient.segmentAt cursor).1.match?, found.stop = cursor.finish := by
  simp only [segmentAt, counterparts.rules, counterparts.symbols, counterparts.strict,
    counterparts.lenient]
  rcases firstMatch?_stricter cursor 0 lenient.rules with
    same | ⟨chosen, rule, found, matched, ends⟩
  · rw [same]
    exact .inl rfl
  · rw [matched]
    right
    refine ⟨found, ?_, ends⟩
    dsimp only
    split <;> rfl

theorem segmentsFrom_eq (counterparts : Counterparts strict lenient) (cursor : Cursor) :
    strict.segmentsFrom cursor = lenient.segmentsFrom cursor ∨
      Segment.EndMatch (lenient.segmentsFrom cursor) cursor.finish := by
  fun_induction segmentsFrom lenient cursor with
  | case1 cursor ended =>
      left
      rw [segmentsFrom, dif_pos ended]
  | case2 cursor more shorter ih =>
      rw [Cursor.finish_moveTo (Nat.le_of_lt shorter)] at ih
      rcases counterparts.segmentAt_eq cursor with same | ⟨found, member, ends⟩
      · rcases ih with later | ⟨segment, listed, ends⟩
        · left
          rw [segmentsFrom, dif_neg more]
          dsimp only
          rw [same, later]
        · exact .inr ⟨segment, List.mem_cons_of_mem _ listed, ends⟩
      · exact .inr ⟨_, List.mem_cons_self, found, member, ends⟩

theorem segmentsFromAnchors_eq (counterparts : Counterparts strict lenient)
    (find : Anchor.Search) (anchors : List Bytes) (text : Bytes) (cursor : Cursor) :
    strict.segmentsFromAnchors find anchors text cursor =
        lenient.segmentsFromAnchors find anchors text cursor ∨
      Segment.EndMatch (lenient.segmentsFromAnchors find anchors text cursor) cursor.finish := by
  fun_induction segmentsFromAnchors find lenient anchors text cursor with
  | case1 cursor ended =>
      left
      rw [segmentsFromAnchors, if_pos ended]
  | case2 cursor more absent =>
      left
      rw [segmentsFromAnchors, if_neg more, absent]
  | case3 cursor more gap next ended =>
      left
      rw [segmentsFromAnchors, if_neg more, next]
      dsimp only
      rw [dif_pos ended]
  | case4 cursor more gap next goesOn shorter ih =>
      rw [Cursor.finish_moveTo (Nat.le_of_lt shorter), Cursor.finish_advance goesOn] at ih
      have here := counterparts.segmentAt_eq (cursor.advance gap)
      rw [Cursor.finish_advance goesOn] at here
      rcases here with same | ⟨found, member, ends⟩
      · rcases ih with later | ⟨segment, listed, ends⟩
        · left
          rw [segmentsFromAnchors, if_neg more, next]
          dsimp only
          rw [dif_neg goesOn, same, later]
        · refine .inr ⟨segment, ?_, ends⟩
          exact List.mem_cons_of_mem _ (List.mem_cons_of_mem _ listed)
      · refine .inr ⟨_, ?_, found, member, ends⟩
        exact List.mem_cons_of_mem _ List.mem_cons_self

theorem segmentsWith_eq (counterparts : Counterparts strict lenient) (find : Anchor.Search)
    (text : Bytes) :
    strict.segmentsWith find text = lenient.segmentsWith find text ∨
      Segment.EndMatch (lenient.segmentsWith find text) text.length := by
  have finish : (Cursor.start text).finish = text.length := Nat.zero_add _
  rw [segmentsWith, segmentsWith, counterparts.rules, counterparts.anchors]
  by_cases ruleless : lenient.rules.isEmpty
  · rw [if_pos ruleless, if_pos ruleless]
    exact .inl rfl
  rw [if_neg ruleless, if_neg ruleless, ← finish]
  cases lenient.anchors with
  | none => exact counterparts.segmentsFrom_eq (Cursor.start text)
  | some anchors => exact counterparts.segmentsFromAnchors_eq find anchors text (Cursor.start text)

end Counterparts

/-- A strict match is the lenient match, and a lenient match that is not strict
ends where the text ends.  So where the strict and the lenient engine differ in
their output or in their counts, the lenient scan has made a match that ends
there. -/
theorem processStats_strictBlocks (rules : List Rule) (options : Options)
    (valid : options.normalized.symbols.Valid) :
    (∀ (pattern : Pattern) (text : Bytes) (start : Int) (found : Match),
      (pattern.matchAt? true text start = some found →
        pattern.matchAt? false text start = some found) ∧
      (pattern.matchAt? false text start = some found →
        pattern.matchAt? true text start = none → found.stop = text.length)) ∧
    ∃ strict lenient,
      compile rules { options with strictBlocks := true } = .ok strict ∧
        compile rules { options with strictBlocks := false } = .ok lenient ∧
        ∀ (find : Anchor.Search) (text : Bytes),
          strict.processStatsWith find text ≠ lenient.processStatsWith find text →
            ∃ segment ∈ lenient.segmentsWith find text, ∃ found ∈ segment.match?,
              found.stop = text.length := by
  constructor
  · intro pattern text start found
    have stricter := pattern.matchAt?_stricter text start
    exact ⟨stricter.eq_some, stricter.final_of_none⟩
  obtain ⟨strict, strictCompiled⟩ :
      ∃ engine, compile rules { options with strictBlocks := true } = .ok engine := by
    apply exists_compile
    exact valid
  obtain ⟨lenient, lenientCompiled⟩ :
      ∃ engine, compile rules { options with strictBlocks := false } = .ok engine := by
    apply exists_compile
    exact valid
  refine ⟨strict, lenient, strictCompiled, lenientCompiled, ?_⟩
  have counterparts : Counterparts strict lenient := by
    rw [(compile_eq_ok_iff.mp strictCompiled).2, (compile_eq_ok_iff.mp lenientCompiled).2]
    constructor <;> rfl
  intro find text differ
  rcases counterparts.segmentsWith_eq find text with same | ends
  · exact (differ (by rw [processStatsWith, processStatsWith, same])).elim
  · exact ends

/-- A block that is not closed and its opener as a second rule, in the text `(x`:
the lenient engine takes all of it as a block, and the strict one replaces the
opener. -/
theorem processStats_strictBlocks_second_rule :
    ∃ strict lenient,
      compile [⟨[], [0x24, 0x7B, 0x28, 0x7D, 0x7B, 0x29, 0x7D, 0x61], [0x31]⟩,
          ⟨[], [0x28], [0x32]⟩] { strictBlocks := true } = .ok strict ∧
        compile [⟨[], [0x24, 0x7B, 0x28, 0x7D, 0x7B, 0x29, 0x7D, 0x61], [0x31]⟩,
          ⟨[], [0x28], [0x32]⟩] { strictBlocks := false } = .ok lenient ∧
        (strict.processStatsWith Anchor.firstEnd? [0x28, 0x78]).1 = [0x32, 0x78] ∧
        (lenient.processStatsWith Anchor.firstEnd? [0x28, 0x78]).1 = [0x31] ∧
        ∃ segment ∈ lenient.segmentsWith Anchor.firstEnd? [0x28, 0x78],
          ∃ found ∈ segment.match?, found.stop = 2 := by
  obtain ⟨_, strict, lenient, strictCompiled, lenientCompiled, differs⟩ :=
    processStats_strictBlocks
      [⟨[], [0x24, 0x7B, 0x28, 0x7D, 0x7B, 0x29, 0x7D, 0x61], [0x31]⟩, ⟨[], [0x28], [0x32]⟩] {}
      (Symbols.fault?_eq_none_iff.mp (by decide))
  have strictOutput : (strict.processStatsWith Anchor.firstEnd? [0x28, 0x78]).1 =
      [0x32, 0x78] := by
    rw [(compile_eq_ok_iff.mp strictCompiled).2]
    decide +kernel
  have lenientOutput : (lenient.processStatsWith Anchor.firstEnd? [0x28, 0x78]).1 = [0x31] := by
    rw [(compile_eq_ok_iff.mp lenientCompiled).2]
    decide +kernel
  refine ⟨strict, lenient, strictCompiled, lenientCompiled, strictOutput, lenientOutput, ?_⟩
  apply differs Anchor.firstEnd? [0x28, 0x78]
  intro same
  rw [same, lenientOutput] at strictOutput
  cases strictOutput

end Engine

end Stencil
