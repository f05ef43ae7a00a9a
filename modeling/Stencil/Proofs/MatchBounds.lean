import Stencil.Proofs.Engine
import Stencil.Proofs.TokenLayout

/-!
# Where captures lie

A match lies in its text, and what it captured lies inside of the match.  The
capturing tokens capture one value each, in the order of the pattern and without
overlap, and the parts of a sequence lie inside of its value.

All of this is read off the shares of a reading: a share captures inside of itself,
and the shares of a reading follow each other.
-/

namespace Stencil

/-- The capture lies in the text, between two offsets, and so do its parts inside of it. -/
structure Capture.Lies (capture : Capture) (text : Bytes) (start stop : Nat) : Prop where
  value : capture.value.Lies text start stop
  parts : ∀ parts ∈ capture.parts, ∀ part ∈ parts,
    part.Lies text capture.value.start capture.value.stop

/-- The match begins at an offset of the text, and its captures lie inside of it one
behind the other. -/
structure Match.Lies (found : Match) (text : Bytes) (start : Int) : Prop where
  begins : (found.start : Int) = start
  ordered : found.start ≤ found.stop
  inside : found.stop ≤ text.length
  stands : found.matched.Of text
  captures : ∀ capture ∈ found.captures, capture.Lies text found.start found.stop
  apart : found.captures.Pairwise fun first second => first.value.stop ≤ second.value.start

section Shares

variable {strict : Bool} {text : Bytes}

theorem Slice.lies_empty {text : Bytes} {start stop : Nat} (ordered : start ≤ stop) :
    Slice.Lies ⟨start, []⟩ text start stop :=
  ⟨Nat.le_refl _, ordered, List.nil_prefix⟩

theorem BlockAt.inner_lies {delimiters : Delimiters} {start stop : Nat} {block : Block}
    (found : BlockAt text delimiters start block stop) :
    (delimiters.inner start block).Lies text start stop := by
  have split := Block.read?_append found.read
  have start_le := Nat.le_trans found.ordered found.inside
  obtain ⟨-, opened⟩ := Bytes.drop_eq_append split
  have lengths := congrArg List.length split
  simp only [found.rest, List.length_append, List.length_drop] at lengths
  have inside := found.inside
  refine ⟨Nat.le_add_right _ _, ?_, ⟨_, opened⟩⟩
  simp only [Delimiters.inner, Slice.stop, Slice.length]
  omega

theorem BlockRun.inners_lie {delimiters : Delimiters} {start stop : Nat} {inners : List Slice}
    (run : BlockRun strict text delimiters start inners stop) :
    ∀ inner ∈ inners, inner.Lies text start stop := by
  induction run with
  | last found _ _ =>
      intro inner member
      obtain rfl := List.mem_singleton.mp member
      exact found.inner_lies
  | more found _ space _ run ih =>
      intro inner member
      rcases List.mem_cons.mp member with rfl | member
      · exact found.inner_lies.widen (Nat.le_refl _) (Nat.le_trans space.ordered run.ordered.1)
      · exact (ih inner member).widen (Nat.le_trans found.ordered space.ordered) (Nat.le_refl _)

theorem Share.Absent.capture_lies {share : Share} {reference : Reference}
    {delimiters : Delimiters} (absent : share.Absent text reference delimiters)
    (names : share.token.reference? = some reference) :
    share.capture.map (·.name) = share.token.reference?.map (·.name.text) ∧
      ∀ capture ∈ share.capture, capture.Lies text share.start share.stop := by
  obtain ⟨-, -, here, captured⟩ := absent
  rw [names, captured, here]
  refine ⟨rfl, ?_⟩
  rintro capture ⟨⟩
  exact ⟨Slice.lies_empty (Nat.le_refl _), by simp⟩

/-- A share captures what its token names, inside of itself. -/
theorem Share.Fits.capture_lies {earlier : List Share} {share : Share} {later : List Token}
    (fits : share.Fits strict text earlier later) (ordered : share.start ≤ share.stop)
    (inside : share.stop ≤ text.length) :
    share.capture.map (·.name) = share.token.reference?.map (·.name.text) ∧
      ∀ capture ∈ share.capture, capture.Lies text share.start share.stop := by
  unfold Share.Fits at fits
  split at fits
  · next literal =>
      rw [Token.reference?, literal, fits.2]
      simp
  · next space =>
      rw [Token.reference?, space, fits.2.2]
      simp
  · next reference isVariable =>
      obtain ⟨first, space, word, -, captured⟩ := fits
      have later : share.start ≤ first := by
        split at space
        · exact Nat.le_of_eq space.symm
        · exact space.ordered
      rw [Token.reference?, isVariable, captured]
      refine ⟨rfl, ?_⟩
      rintro capture ⟨⟩
      exact ⟨Slice.lies_between later word.ordered (Nat.le_refl _) inside, by simp⟩
  · next reference delimiters isBlock =>
      have names : share.token.reference? = some reference := by rw [Token.reference?, isBlock]
      rcases fits with ⟨block, found, -, captured⟩ | absent
      · rw [names, captured]
        refine ⟨rfl, ?_⟩
        rintro capture ⟨⟩
        exact ⟨found.inner_lies, by simp⟩
      · exact absent.capture_lies names
  · next reference delimiters isBlocks =>
      have names : share.token.reference? = some reference := by rw [Token.reference?, isBlocks]
      rcases fits with ⟨inners, run, captured⟩ | absent
      · rw [names, captured]
        refine ⟨rfl, ?_⟩
        rintro capture ⟨⟩
        refine ⟨Slice.lies_between (Nat.le_refl _) ordered (Nat.le_refl _) inside, ?_⟩
        rintro parts ⟨⟩ inner member
        have ends : (Slice.mk share.start (text.between share.start share.stop)).stop =
            share.stop := by
          simp only [Slice.stop, Slice.length, Bytes.length_between inside]
          omega
        rw [ends]
        exact run.inners_lie inner member
      · exact absent.capture_lies names

theorem Share.Consecutive.of_mem {shares : List Share} {start stop : Nat}
    (consecutive : Share.Consecutive start shares stop) {share : Share} (member : share ∈ shares) :
    share.start ≤ share.stop ∧ share.stop ≤ stop := by
  induction consecutive with
  | nil => cases member
  | cons ordered consecutive ih =>
      rcases List.mem_cons.mp member with rfl | member
      · exact ⟨ordered, consecutive.le⟩
      · exact ih member

theorem Reading.share_lies {tokens : List Token} {start stop : Nat} {shares : List Share}
    (reading : Reading strict text [] tokens start shares stop) {share : Share}
    (member : share ∈ shares) :
    share.capture.map (·.name) = share.token.reference?.map (·.name.text) ∧
      ∀ capture ∈ share.capture, capture.Lies text share.start share.stop := by
  obtain ⟨before, after, split⟩ := List.append_of_mem member
  obtain ⟨ordered, bound⟩ := reading.consecutive.of_mem member
  exact (reading.fits before share after split).capture_lies ordered
    (Nat.le_trans bound reading.inside)

/-- The captures of consecutive shares lie one behind the other. -/
theorem Share.Consecutive.captures_lie {shares : List Share} {start stop : Nat}
    (consecutive : Share.Consecutive start shares stop)
    (each : ∀ share ∈ shares, ∀ capture ∈ share.capture,
      capture.Lies text share.start share.stop) :
    (∀ capture ∈ shares.filterMap Share.capture, capture.Lies text start stop) ∧
      (shares.filterMap Share.capture).Pairwise
        fun first second => first.value.stop ≤ second.value.start := by
  induction consecutive with
  | nil => simp
  | @cons share shares stop ordered consecutive ih =>
      have own := each share List.mem_cons_self
      obtain ⟨later, apart⟩ := ih fun other member => each other (List.mem_cons_of_mem _ member)
      have bound := consecutive.le
      have widened : ∀ capture ∈ shares.filterMap Share.capture,
          capture.Lies text share.start stop := fun capture member =>
        ⟨(later capture member).value.widen ordered (Nat.le_refl _), (later capture member).parts⟩
      cases captured : share.capture with
      | none =>
          rw [List.filterMap_cons_none captured]
          exact ⟨widened, apart⟩
      | some first =>
          have first_lies := own first captured
          rw [List.filterMap_cons_some captured]
          refine ⟨List.forall_mem_cons.mpr ⟨?_, widened⟩, List.pairwise_cons.mpr ⟨?_, apart⟩⟩
          · exact ⟨first_lies.value.widen (Nat.le_refl _) bound, first_lies.parts⟩
          · intro second member
            exact Nat.le_trans first_lies.value.upper (later second member).value.lower

end Shares

/-- A match of a pattern lies in the text and captures what the pattern names. -/
theorem Pattern.lies_of_matchFrom? {pattern : Pattern}
    (wellFormed : ∀ token ∈ pattern.tokens, token.WellFormed) {strict : Bool} {text : Bytes}
    {start : Nat} (inside : start ≤ text.length) {found : Match}
    (matched : pattern.matchFrom? strict (Cursor.inside text start) = some found) :
    found.Lies text start ∧ found.captures.map (·.name) = pattern.names := by
  obtain ⟨shares, stop, reading, rfl⟩ := (matchFrom?_eq_some_iff wellFormed inside).mp matched
  have ordered := reading.consecutive.le
  have ends := matchOf_stop reading
  obtain ⟨captures, apart⟩ := reading.consecutive.captures_lie
    fun share member => (reading.share_lies member).2
  constructor
  · refine ⟨rfl, Nat.le_add_right _ _, ?_, ?_, ?_, apart⟩
    · rw [ends]
      exact reading.inside
    · exact ⟨text.drop stop, Bytes.between_append_drop ordered⟩
    · rw [ends]
      exact captures
  · simp only [matchOf, names, ← reading.tokens, List.map_filterMap, List.filterMap_map]
    apply List.filterMap_congr
    exact fun share member => (reading.share_lies member).1

theorem Pattern.lies_of_matchAt? {pattern : Pattern}
    (wellFormed : ∀ token ∈ pattern.tokens, token.WellFormed) {strict : Bool} {text : Bytes}
    {start : Int} {found : Match} (matched : pattern.matchAt? strict text start = some found) :
    found.Lies text start ∧ found.captures.map (·.name) = pattern.names := by
  cases start with
  | negSucc n => cases matched
  | ofNat n =>
      by_cases inside : n ≤ text.length
      · exact lies_of_matchFrom? wellFormed inside ((matchAt?_ofNat inside).symm.trans matched)
      · have absent : pattern.matchAt? strict text (.ofNat n) = none := if_neg inside
        rw [absent] at matched
        cases matched

end Stencil
