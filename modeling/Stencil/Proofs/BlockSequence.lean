import Mathlib.Data.List.Chain
import Stencil.Proofs.BalancedBlock
import Stencil.Proofs.MatchExactness

/-!
# Sequences of blocks

A token for a sequence of blocks takes blocks one after the other, with any white space
between them, up to where no further block follows.  The white space behind the last
block is left alone.  Only the last block may lack its closer; a strict match fails
there, and no other.

`BlockSequence` describes the blocks by their places.  It is built from the first block
and the sequence behind it, the way the matcher reads it.
-/

namespace Stencil

/-- A block and the stretch of the text that it takes. -/
structure PlacedBlock where
  start : Nat
  stop : Nat
  block : Block

namespace PlacedBlock

/-- The block is the one that is found at its place, and it ends where its rest begins. -/
structure Found (text : Bytes) (delimiters : Delimiters) (placed : PlacedBlock) : Prop where
  extracted : Block.extract text placed.start delimiters.opener delimiters.closer =
    .ok (.found placed.block)
  forward : placed.start < placed.stop
  inside : placed.stop ≤ text.length
  rest : placed.block.rest = text.drop placed.stop

/-- The inside of the block. -/
def inner (delimiters : Delimiters) (placed : PlacedBlock) : Slice :=
  delimiters.inner placed.start placed.block

/-- The texts of the blocks and what stands between them. -/
def written (text : Bytes) : List PlacedBlock → Bytes
  | [] => []
  | [last] => text.between last.start last.stop
  | first :: second :: others =>
      text.between first.start first.stop ++ text.between first.stop second.start ++
        written text (second :: others)

/-- Some block lacks its closer. -/
def anyOpen (blocks : List PlacedBlock) : Bool :=
  blocks.any fun placed => !placed.block.closed

end PlacedBlock

/-- The blocks from one offset to another, with maximal runs of white space between
them.  All but the last are closed; if the last one is closed too, no opener follows
behind the white space. -/
structure BlockSequence (text : Bytes) (delimiters : Delimiters) (start : Nat)
    (blocks : List PlacedBlock) (stop : Nat) : Prop where
  first : blocks.head?.map PlacedBlock.start = some start
  found : ∀ placed ∈ blocks, placed.Found text delimiters
  apart : blocks.IsChain fun first second =>
    first.block.closed = true ∧ SpaceRun text first.stop second.start
  last : blocks.getLast?.map PlacedBlock.stop = some stop
  maximal : ∀ placed ∈ blocks.getLast?, placed.block.closed = true →
    ∀ next, SpaceRun text stop next → ¬ delimiters.opener <+: text.drop next

section Sequence

variable {text : Bytes} {delimiters : Delimiters} {start stop : Nat}

theorem PlacedBlock.Found.blockAt {placed : PlacedBlock} (found : placed.Found text delimiters) :
    BlockAt text delimiters placed.start placed.block placed.stop :=
  ⟨Block.read?_of_extract found.extracted, Nat.le_of_lt found.forward, found.inside, found.rest⟩

theorem BlockAt.found {block : Block} (openerNonempty : delimiters.opener ≠ [])
    (closerNonempty : delimiters.closer ≠ [])
    (found : BlockAt text delimiters start block stop) :
    PlacedBlock.Found text delimiters ⟨start, stop, block⟩ :=
  ⟨Block.extract_of_read? openerNonempty closerNonempty
    (Nat.le_trans found.ordered found.inside) found.read, found.lt, found.inside, found.rest⟩

namespace BlockSequence

theorem singleton {placed : PlacedBlock} (found : placed.Found text delimiters)
    (maximal : placed.block.closed = true → ∀ next, SpaceRun text placed.stop next →
      ¬ delimiters.opener <+: text.drop next) :
    BlockSequence text delimiters placed.start [placed] placed.stop where
  first := rfl
  found := List.forall_mem_singleton.mpr found
  apart := .singleton _
  last := rfl
  maximal := by
    rintro _ ⟨⟩
    exact maximal

theorem cons {placed next : PlacedBlock} {others : List PlacedBlock}
    (found : placed.Found text delimiters) (closed : placed.block.closed = true)
    (space : SpaceRun text placed.stop next.start)
    (later : BlockSequence text delimiters next.start (next :: others) stop) :
    BlockSequence text delimiters placed.start (placed :: next :: others) stop where
  first := rfl
  found := List.forall_mem_cons.mpr ⟨found, later.found⟩
  apart := .cons_cons ⟨closed, space⟩ later.apart
  last := later.last
  maximal := later.maximal

/-- Where a block begins, a sequence of blocks does. -/
theorem exists_of_prefix (openerNonempty : delimiters.opener ≠ [])
    (closerNonempty : delimiters.closer ≠ []) (inside : start ≤ text.length)
    (opens : delimiters.opener <+: text.drop start) :
    ∃ blocks stop, BlockSequence text delimiters start blocks stop := by
  -- every further block begins later in the text
  induction remaining : text.length - start using Nat.strongRecOn generalizing start with
  | _ remaining ih =>
      obtain ⟨block, read⟩ := Option.ne_none_iff_exists'.mp
        fun absent => (Block.read?_eq_none_iff openerNonempty closerNonempty).mp absent opens
      obtain ⟨behind, blockAt, -⟩ := exists_blockAt inside read
      have found := blockAt.found openerNonempty closerNonempty
      have space : SpaceRun text behind _ := spaceRun_takeWhile blockAt.inside
      by_cases further : block.closed = true ∧ delimiters.opener <+: text.drop
          (behind + ((text.drop behind).takeWhile Bytes.isSpace).length)
      · obtain ⟨closed, opensAgain⟩ := further
        have forward := blockAt.lt
        have within := space.ordered
        have bound := space.inside
        obtain ⟨blocks, stop, later⟩ := ih _ (by omega) bound opensAgain rfl
        cases blocks with
        | nil => cases later.first
        | cons next others =>
            have begins : next.start = _ := Option.some.inj later.first
            rw [← begins] at space later
            exact ⟨_, stop, cons found closed space later⟩
      · refine ⟨_, _, singleton found ?_⟩
        intro closed next other opensAgain
        rw [← other.stop_eq] at opensAgain
        exact further ⟨closed, opensAgain⟩

/-- A sequence is a last block, or a closed block with a sequence behind it. -/
theorem induction
    {motive : ∀ start blocks, BlockSequence text delimiters start blocks stop → Prop}
    (single : ∀ (placed : PlacedBlock) (sequence), placed.Found text delimiters →
      placed.stop = stop →
      (placed.block.closed = true → ∀ next, SpaceRun text stop next →
        ¬ delimiters.opener <+: text.drop next) →
      motive placed.start [placed] sequence)
    (more : ∀ (placed next : PlacedBlock) (others : List PlacedBlock) (sequence later),
      placed.Found text delimiters → placed.block.closed = true →
      SpaceRun text placed.stop next.start → next.Found text delimiters →
      motive next.start (next :: others) later →
      motive placed.start (placed :: next :: others) sequence)
    {start : Nat} {blocks : List PlacedBlock}
    (sequence : BlockSequence text delimiters start blocks stop) :
    motive start blocks sequence := by
  obtain ⟨first, found, apart, last, maximal⟩ := sequence
  induction blocks generalizing start with
  | nil => cases first
  | cons placed others ih =>
      cases first
      obtain ⟨here, later⟩ := List.forall_mem_cons.mp found
      cases others with
      | nil => exact single placed _ here (Option.some.inj last) (maximal placed rfl)
      | cons next others =>
          obtain ⟨⟨closed, space⟩, chain⟩ := List.isChain_cons_cons.mp apart
          exact more placed next others _ _ here closed space (later next List.mem_cons_self)
            (ih rfl later chain last maximal)

/-- The blocks and the white space between them make up the text of the sequence.  No
block is empty, so there are at most as many as bytes. -/
theorem between_eq {blocks : List PlacedBlock}
    (sequence : BlockSequence text delimiters start blocks stop) :
    start + blocks.length ≤ stop ∧ stop ≤ text.length ∧
      text.between start stop = PlacedBlock.written text blocks := by
  induction sequence using induction with
  | single placed _ found ends maximal =>
      subst ends
      exact ⟨found.forward, found.inside, rfl⟩
  | more placed next others _ _ found closed space _ ih =>
      obtain ⟨forward, inside, written⟩ := ih
      have own := found.forward
      have ordered := space.ordered
      refine ⟨by simp only [List.length_cons] at forward ⊢; omega, inside, ?_⟩
      rw [PlacedBlock.written, ← written, Bytes.between_append_between (by omega) ordered,
        Bytes.between_append_between (by omega) (by omega)]

/-- The matcher reads the sequence, unless it is strict and a closer is missing. -/
theorem blockRun_eq {blocks : List PlacedBlock}
    (sequence : BlockSequence text delimiters start blocks stop) (strict : Bool) :
    Token.blockRun strict delimiters.opener delimiters.closer (Cursor.inside text start) =
      if strict && PlacedBlock.anyOpen blocks then none
      else some (blocks.map (PlacedBlock.inner delimiters), Cursor.inside text stop) := by
  induction sequence using induction with
  | single placed _ found ends maximal =>
      subst ends
      rw [blockRun_of_blockAt found.blockAt]
      cases closed : placed.block.closed with
      | false => simp [PlacedBlock.anyOpen, PlacedBlock.inner, closed]
      | true =>
          have space : SpaceRun text placed.stop _ := spaceRun_takeWhile found.inside
          have alone : ¬ delimiters.opener.isPrefixOf (Cursor.inside text _).rest = true :=
            mt List.isPrefixOf_iff_prefix.mp (maximal closed _ space)
          rw [space.skipSpace_eq, if_pos rfl, if_neg alone]
          simp [PlacedBlock.anyOpen, PlacedBlock.inner, closed]
  | more placed next others _ _ found closed space further ih =>
      have opensAgain := List.isPrefixOf_iff_prefix.mpr further.blockAt.opener_prefix
      rw [blockRun_of_blockAt found.blockAt, if_pos closed, space.skipSpace_eq,
        Cursor.inside_rest, if_pos opensAgain, ih]
      have same : PlacedBlock.anyOpen (placed :: next :: others) =
          PlacedBlock.anyOpen (next :: others) := by
        simp [PlacedBlock.anyOpen, closed]
      rw [same]
      split <;> rfl

end BlockSequence

end Sequence

/-- A token for a sequence takes a maximal sequence of blocks from where the first one
begins, whatever stands around the token.  It captures the text up to the end of the last
block and the insides of the blocks, in order.  It fails only when it is strict and a
closer is missing. -/
theorem Token.step?_blockSequence {token : Token} {reference : Reference}
    {delimiters : Delimiters} (isBlocks : token.element = .blocks reference delimiters)
    (openerNonempty : delimiters.opener ≠ []) (closerNonempty : delimiters.closer ≠ [])
    {text : Bytes} {start : Nat} (inside : start ≤ text.length)
    (opens : delimiters.opener <+: text.drop start) :
    ∃ blocks stop, BlockSequence text delimiters start blocks stop ∧
      start + blocks.length ≤ stop ∧ stop ≤ text.length ∧
      text.between start stop = PlacedBlock.written text blocks ∧
      ∀ (strict afterSpace skipped : Bool) (later : List Token),
        step? strict afterSpace skipped later token (Cursor.inside text start) =
          if strict && PlacedBlock.anyOpen blocks then none
          else some
            { cursor := Cursor.inside text stop
              capture := some
                { name := reference.name.text
                  value := ⟨start, text.between start stop⟩
                  parts := some (blocks.map (PlacedBlock.inner delimiters)) }
              skipped := false } := by
  obtain ⟨blocks, stop, sequence⟩ :=
    BlockSequence.exists_of_prefix openerNonempty closerNonempty inside opens
  obtain ⟨bound, within, written⟩ := sequence.between_eq
  refine ⟨blocks, stop, sequence, bound, within, written, ?_⟩
  intro strict afterSpace skipped later
  simp only [step?, isBlocks, sequence.blockRun_eq]
  by_cases fails : (strict && PlacedBlock.anyOpen blocks) = true
  · rw [if_pos fails, if_pos fails]
  · rw [if_neg fails, if_neg fails]
    cases blocks with
    | nil => cases sequence.first
    | cons placed others =>
        rw [List.map_cons]
        dsimp only
        rw [Cursor.inside_rest, Cursor.inside_sliceTo_drop (Nat.le_of_add_right_le bound)]

/-- Two closed blocks, and a third that is not: it ends the text, and fails a strict
match. -/
theorem Token.step?_blockSequence_unclosed :
    ∃ blocks stop,
      BlockSequence (bytes "-(a) \t(b(c))(d ") ⟨bytes "(", bytes ")", none, none⟩ 1 blocks stop ∧
        stop = (bytes "-(a) \t(b(c))(d ").length ∧
        blocks.map (PlacedBlock.inner ⟨bytes "(", bytes ")", none, none⟩) =
          [⟨2, bytes "a"⟩, ⟨7, bytes "b(c)"⟩, ⟨13, bytes "d "⟩] ∧
        PlacedBlock.anyOpen blocks = true := by
  let delimiters : Delimiters := ⟨bytes "(", bytes ")", none, none⟩
  let token : Token := ⟨⟨0, []⟩, .blocks ⟨⟨0, bytes "x"⟩, false⟩ delimiters, {}⟩
  have isBlocks : token.element = .blocks ⟨⟨0, bytes "x"⟩, false⟩ delimiters := rfl
  have inside : 1 ≤ (bytes "-(a) \t(b(c))(d ").length := by decide
  obtain ⟨blocks, stop, sequence, -, -, -, stepped⟩ :=
    step?_blockSequence isBlocks (by decide) (by decide) inside (by decide)
  have lenient : (step? false false false [] token
      (Cursor.inside (bytes "-(a) \t(b(c))(d ") 1)).map
        (fun step => (step.cursor, step.capture.bind (·.parts))) =
      some (Cursor.inside (bytes "-(a) \t(b(c))(d ") 15,
        some [⟨2, bytes "a"⟩, ⟨7, bytes "b(c)"⟩, ⟨13, bytes "d "⟩]) := by
    decide +kernel
  have strict : (step? true false false [] token
      (Cursor.inside (bytes "-(a) \t(b(c))(d ") 1)).isNone = true := by
    decide +kernel
  rw [stepped, if_neg (by simp)] at lenient
  obtain ⟨here, parts⟩ := Prod.mk.inj (Option.some.inj lenient)
  refine ⟨blocks, stop, sequence, Cursor.inside_injective here, Option.some.inj parts, ?_⟩
  rw [stepped] at strict
  by_contra closed
  simp [closed] at strict

end Stencil
