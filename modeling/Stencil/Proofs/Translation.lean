import Stencil.Proofs.Cursor
import Stencil.Engine.Basic

/-!
# Text in front

What stands in front of a place has no part in what is matched there.  Moving a
cursor by `n` bytes, with the same text after it, moves every offset in a match
by `n` and changes nothing else; so putting a text in front of another one moves
the matches in it by the length of the former.
-/

namespace Stencil

def Slice.shift (n : Nat) (slice : Slice) : Slice :=
  { slice with start := n + slice.start }

/-- The capture `n` bytes further on. -/
def Capture.shift (n : Nat) (capture : Capture) : Capture :=
  { capture with
    value := capture.value.shift n
    parts := capture.parts.map fun parts => parts.map (Slice.shift n) }

/-- The match `n` bytes further on: all offsets are moved, all texts stay. -/
def Match.shift (n : Nat) (found : Match) : Match :=
  { found with
    matched := found.matched.shift n
    captures := found.captures.map (Capture.shift n) }

namespace Cursor

def shift (n : Nat) (cursor : Cursor) : Cursor :=
  ⟨n + cursor.offset, cursor.rest⟩

@[simp] theorem shift_rest (n : Nat) (cursor : Cursor) : (cursor.shift n).rest = cursor.rest :=
  rfl

@[simp] theorem shift_offset (n : Nat) (cursor : Cursor) :
    (cursor.shift n).offset = n + cursor.offset :=
  rfl

theorem advance_shift (n : Nat) (cursor : Cursor) (length : Nat) :
    (cursor.shift n).advance length = (cursor.advance length).shift n := by
  simp [advance, shift, Nat.add_assoc]

theorem moveTo_shift (n : Nat) (cursor : Cursor) (rest : Bytes) :
    (cursor.shift n).moveTo rest = (cursor.moveTo rest).shift n := by
  simp [moveTo, shift, Nat.add_assoc]

theorem skipSpace_shift (n : Nat) (cursor : Cursor) :
    (cursor.shift n).skipSpace = cursor.skipSpace.shift n := by
  simp [skipSpace, shift, Nat.add_assoc]

/-- A place in a text is also a place behind any text in front of it. -/
theorem inside_append (before text : Bytes) (place : Nat) :
    inside (before ++ text) (before.length + place) = (inside text place).shift before.length := by
  simp [inside, shift, List.drop_append]

end Cursor

theorem Bytes.add_le_length_append (before text : Bytes) (place : Nat) :
    before.length + place ≤ (before ++ text).length ↔ place ≤ text.length := by
  rw [List.length_append]
  exact Nat.add_le_add_iff_left

/-- The step `n` bytes further on. -/
def Step.shift (n : Nat) (step : Step) : Step :=
  { step with cursor := step.cursor.shift n, capture := step.capture.map (Capture.shift n) }

namespace Token

theorem blockRun_shift (strict : Bool) (opener closer : Bytes) (n : Nat) (cursor : Cursor) :
    blockRun strict opener closer (cursor.shift n) =
      (blockRun strict opener closer cursor).map fun (inners, last) =>
        (inners.map (Slice.shift n), last.shift n) := by
  fun_induction blockRun strict opener closer cursor with
  | case1 cursor absent =>
      have unread : Block.read? opener closer (cursor.shift n).rest = none := absent
      rw [blockRun_none unread]
      rfl
  | case2 cursor block found _ inner behind closed again ih =>
      have read : Block.read? opener closer (cursor.shift n).rest = some block := found
      rw [blockRun_some read, if_pos closed, Cursor.moveTo_shift, Cursor.skipSpace_shift,
        Cursor.shift_rest, if_pos again, ih, Option.map_map, Option.map_map]
      congr 1
      funext run
      simp [Slice.shift, inner, Nat.add_assoc]
  | case3 cursor block found _ inner behind closed alone =>
      have read : Block.read? opener closer (cursor.shift n).rest = some block := found
      rw [blockRun_some read, if_pos closed, Cursor.moveTo_shift, Cursor.skipSpace_shift,
        Cursor.shift_rest, if_neg alone]
      simp [Slice.shift, inner, behind, Nat.add_assoc]
  | case4 cursor block found _ unfinished isStrict =>
      have read : Block.read? opener closer (cursor.shift n).rest = some block := found
      rw [blockRun_some read, if_neg unfinished, if_pos isStrict]
      rfl
  | case5 cursor block found _ inner behind unfinished isLenient =>
      have read : Block.read? opener closer (cursor.shift n).rest = some block := found
      rw [blockRun_some read, if_neg unfinished, if_neg isLenient, Cursor.moveTo_shift]
      simp [Slice.shift, inner, behind, Nat.add_assoc]

theorem step?_shift (strict afterSpace skipped : Bool) (later : List Token) (token : Token)
    (n : Nat) (cursor : Cursor) :
    step? strict afterSpace skipped later token (cursor.shift n) =
      (step? strict afterSpace skipped later token cursor).map (Step.shift n) := by
  cases element : token.element with
  | space =>
      simp only [step?, element, Cursor.shift_rest, Cursor.skipSpace_shift]
      repeat' split
      all_goals rfl
  | literal =>
      simp only [step?, element, Cursor.shift_rest, Cursor.advance_shift]
      split <;> rfl
  | «variable» reference =>
      have start : (if afterSpace then cursor.shift n else (cursor.shift n).skipSpace) =
          (if afterSpace then cursor else cursor.skipSpace).shift n := by
        cases afterSpace
        · exact Cursor.skipSpace_shift n cursor
        · rfl
      simp only [step?, element, start]
      generalize (if afterSpace then cursor else cursor.skipSpace) = start
      simp only [Cursor.shift_rest, Cursor.advance_shift]
      rw [apply_ite (Option.map (Step.shift n))]
      rfl
  | block reference delimiters =>
      simp only [step?, element, Cursor.shift_rest, Cursor.moveTo_shift]
      cases Block.read? delimiters.opener delimiters.closer cursor.rest with
      | none => cases reference.optional <;> rfl
      | some block =>
          dsimp only
          split
          · simp [Step.shift, Capture.shift, Slice.shift, Nat.add_assoc]
          · rfl
  | blocks reference delimiters =>
      simp only [step?, element, blockRun_shift]
      cases blockRun strict delimiters.opener delimiters.closer cursor with
      | none => rfl
      | some run =>
          obtain ⟨inners, last⟩ := run
          cases inners with
          | nil => cases reference.optional <;> rfl
          | cons inner inners => rfl

theorem run?_shift (strict afterSpace skipped : Bool) (tokens : List Token) (n : Nat)
    (cursor : Cursor) :
    run? strict afterSpace skipped tokens (cursor.shift n) =
      (run? strict afterSpace skipped tokens cursor).map fun (captures, last) =>
        (captures.map (Capture.shift n), last.shift n) := by
  induction tokens generalizing afterSpace skipped cursor with
  | nil => rfl
  | cons token later ih =>
      rw [run?, run?, step?_shift]
      cases step? strict afterSpace skipped later token cursor with
      | none => rfl
      | some step =>
          simp only [Option.map_some]
          rw [Step.shift, ih, Option.map_map, Option.map_map]
          congr 1
          funext run
          cases step.capture <;> simp

end Token

namespace Pattern

theorem matchFrom?_shift (pattern : Pattern) (strict : Bool) (n : Nat) (cursor : Cursor) :
    pattern.matchFrom? strict (cursor.shift n) =
      (pattern.matchFrom? strict cursor).map (Match.shift n) := by
  rw [matchFrom?, matchFrom?, Token.run?_shift, Option.map_map, Option.map_map]
  rfl

/-- The match behind a text is the match without it, moved by its length. -/
theorem matchAt?_append (pattern : Pattern) (strict : Bool) (before text : Bytes) (place : Nat) :
    pattern.matchAt? strict (before ++ text) (before.length + place : Nat) =
      (pattern.matchAt? strict text place).map (Match.shift before.length) := by
  have within := Bytes.add_le_length_append before text place
  show (if before.length + place ≤ (before ++ text).length then _ else _) =
    Option.map _ (if place ≤ text.length then _ else _)
  rw [Cursor.inside_append, matchFrom?_shift]
  by_cases inside : place ≤ text.length
  · rw [if_pos (within.mpr inside), if_pos inside]
  · rw [if_neg (mt within.mp inside), if_neg inside]
    rfl

end Pattern

theorem Template.expand_shift (sigil template : Bytes) (n : Nat) (found : Match) :
    expand sigil template (found.shift n) = expand sigil template found := by
  have lookup : (found.shift n).lookup? = found.lookup? := by
    funext name
    simp only [Match.lookup?, Match.capture?, Match.shift, List.find?_map, Option.map_map]
    rfl
  have piece : ∀ piece : Piece, piece.expand sigil (found.shift n) = piece.expand sigil found := by
    intro piece
    cases piece <;> simp [Piece.expand, lookup]
  simp only [expand, piece]

/-- The segment `n` bytes further on. -/
def Segment.shift (n : Nat) : Segment → Segment
  | .copied text => .copied text
  | .replaced rule found expansion => .replaced rule (found.shift n) expansion
  | .inserted rule found expansion char => .inserted rule (found.shift n) expansion char

namespace Engine

theorem firstMatch?_shift (strict : Bool) (n : Nat) (cursor : Cursor) (index : Nat)
    (rules : List CompiledRule) :
    firstMatch? strict (cursor.shift n) index rules =
      (firstMatch? strict cursor index rules).map fun (chosen, rule, found) =>
        (chosen, rule, found.shift n) := by
  induction rules generalizing index with
  | nil => rfl
  | cons compiled rules ih =>
      rw [firstMatch?, firstMatch?, Pattern.matchFrom?_shift]
      cases compiled.pattern.matchFrom? strict cursor with
      | some found => rfl
      | none => exact ih (index + 1)

theorem matchAt?_append (engine : Engine) (before text : Bytes) (place : Nat) :
    engine.matchAt? (before ++ text) (before.length + place : Nat) =
      (engine.matchAt? text place).map fun (chosen, found) =>
        (chosen, found.shift before.length) := by
  have within := Bytes.add_le_length_append before text place
  show (if before.length + place ≤ (before ++ text).length then _ else _) =
    Option.map _ (if place ≤ text.length then _ else _)
  rw [Cursor.inside_append, firstMatch?_shift, Option.map_map]
  by_cases inside : place ≤ text.length
  · rw [if_pos (within.mpr inside), if_pos inside, Option.map_map]
    rfl
  · rw [if_neg (mt within.mp inside), if_neg inside]
    rfl

theorem segmentAt_shift (engine : Engine) (n : Nat) (cursor : Cursor) :
    engine.segmentAt (cursor.shift n) =
      ((engine.segmentAt cursor).1.shift n, (engine.segmentAt cursor).2) := by
  simp only [segmentAt, firstMatch?_shift, Cursor.shift_rest]
  cases firstMatch? engine.options.strictBlocks cursor 0 engine.rules with
  | none => rfl
  | some won =>
      obtain ⟨chosen, rule, found⟩ := won
      simp only [Option.map_some, Template.expand_shift]
      by_cases consumed : found.rest.length < cursor.rest.length
      · have shifted : (found.shift n).rest.length < cursor.rest.length := consumed
        rw [if_pos consumed, if_pos shifted]
        rfl
      · have shifted : ¬ (found.shift n).rest.length < cursor.rest.length := consumed
        rw [if_neg consumed, if_neg shifted]
        rfl

theorem segmentsFrom_shift (engine : Engine) (n : Nat) (cursor : Cursor) :
    engine.segmentsFrom (cursor.shift n) = (engine.segmentsFrom cursor).map (Segment.shift n) := by
  fun_induction segmentsFrom engine cursor with
  | case1 cursor ended =>
      have shifted : (cursor.shift n).rest = [] := ended
      rw [segmentsFrom, dif_pos shifted]
      rfl
  | case2 cursor more _ ih =>
      have shifted : ¬ (cursor.shift n).rest = [] := more
      rw [segmentsFrom, dif_neg shifted]
      dsimp only
      rw [segmentAt_shift, Cursor.moveTo_shift, ih]
      rfl

end Engine

end Stencil
