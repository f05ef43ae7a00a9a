import Stencil.Proofs.Engine
import Stencil.Proofs.Tally

/-!
# What a scan yields

An engine that uses no anchors cuts a text into segments, one after the other
and none of them empty.  The output is what the segments put out, and the counts
are those of the rules that won.
-/

namespace Stencil

/-- The input that segments cover together. -/
def Segment.sourceOf (segments : List Segment) : Bytes :=
  segments.flatMap Segment.source

/-- The segment at an index covers the byte at a place, when the segments lie
one after the other from the beginning of the text. -/
def Segment.Covers (segments : List Segment) (index place : Nat) : Prop :=
  ∃ segment, segments[index]? = some segment ∧
    (sourceOf (segments.take index)).length ≤ place ∧
      place < (sourceOf (segments.take index)).length + segment.source.length

theorem Segment.covers_zero {segment : Segment} {segments : List Segment} {place : Nat} :
    Covers (segment :: segments) 0 place ↔ place < segment.source.length := by
  simp [Covers, sourceOf]

theorem Segment.covers_succ {segment : Segment} {segments : List Segment} {index place : Nat} :
    Covers (segment :: segments) (index + 1) place ↔
      segment.source.length ≤ place ∧ Covers segments index (place - segment.source.length) := by
  simp only [Covers, sourceOf, List.getElem?_cons_succ, List.take_succ_cons, List.flatMap_cons,
    List.length_append]
  constructor
  · rintro ⟨found, listed, above, below⟩
    exact ⟨by omega, found, listed, by omega, by omega⟩
  · rintro ⟨behind, found, listed, above, below⟩
    exact ⟨found, listed, by omega, by omega⟩

/-- Every byte of the input belongs to exactly one segment. -/
theorem Segment.covers_unique {segments : List Segment} {place : Nat}
    (inside : place < (sourceOf segments).length) :
    ∃ index, Covers segments index place ∧
      ∀ other, Covers segments other place → other = index := by
  induction segments generalizing place with
  | nil => cases inside
  | cons segment segments ih =>
      -- a byte beyond the first segment is sought in the others, that much nearer
      by_cases here : place < segment.source.length
      · refine ⟨0, covers_zero.mpr here, ?_⟩
        intro other covers
        cases other with
        | zero => rfl
        | succ other =>
            have behind := (covers_succ.mp covers).1
            omega
      · have rest : place - segment.source.length < (sourceOf segments).length := by
          simp only [sourceOf, List.flatMap_cons, List.length_append] at inside ⊢
          omega
        obtain ⟨index, covers, only⟩ := ih rest
        refine ⟨index + 1, covers_succ.mpr ⟨by omega, covers⟩, ?_⟩
        intro other otherCovers
        cases other with
        | zero => exact (here (covers_zero.mp otherCovers)).elim
        | succ other => rw [only other (covers_succ.mp otherCovers).2]

namespace Engine

theorem Scans.sourceOf_eq {engine : Engine} (wellFormed : engine.WellFormed) {text : Bytes}
    {place : Nat} {segments : List Segment} (scans : engine.Scans text place segments) :
    Segment.sourceOf segments = text.drop place := by
  induction scans with
  | done => simp [Segment.sourceOf]
  | @cut place behind segment segments cuts _ ih =>
      obtain ⟨later, _, source⟩ := cuts.source wellFormed
      have whole : text.between place behind ++ _ = _ :=
        Bytes.between_append_drop (Nat.le_of_lt later)
      rw [← whole, ← source, ← ih]
      rfl

/-- How often a rule with the label won. -/
def winsOf (segments : List Segment) (label : Bytes) : Nat :=
  (segments.filterMap Segment.rule?).countP fun rule => rule.label = label

/-- The output and the counts are those of the segments. -/
structure Accounts (segments : List Segment) (output : Bytes) (stats : Stats) : Prop where
  output : output = segments.flatMap Segment.output
  total : stats.total = (segments.filterMap Segment.rule?).length
  perRule : ∀ label, stats.perRule.lookup label =
    if winsOf segments label = 0 then none else some (winsOf segments label : Int)
  distinct : Keyed.Sorted stats.perRule
  sum : stats.perRule.sum = stats.total

theorem accounts_statsOf (segments : List Segment) :
    Accounts segments (outputOf segments) (statsOf segments) := by
  constructor
  · rfl
  · rfl
  · intro label
    have counted : ((segments.filterMap Segment.rule?).map Rule.label).count label =
        winsOf segments label := by
      rw [List.count, List.countP_map, winsOf]
      exact List.countP_congr (by simp)
    have listed : label ∈ (segments.filterMap Segment.rule?).map Rule.label ↔
        winsOf segments label ≠ 0 := by
      rw [← List.count_pos_iff, counted]
      omega
    simp only [statsOf, Tally.lookup_ofLabels, listed, counted]
    by_cases never : winsOf segments label = 0 <;> simp [never]
  · exact Tally.sorted_ofLabels _
  · simp only [statsOf, Tally.sum_ofLabels, List.length_map]

theorem Accounts.of_joins {joined segments : List Segment} (joins : Joins joined segments) :
    Accounts segments (outputOf joined) (statsOf joined) := by
  rw [joins.outputOf_eq, joins.statsOf_eq]
  exact accounts_statsOf segments

/-- An engine without anchors cuts every text into segments in one way only:
at each place the first rule that matches wins, and a character is copied where
none does or where the winner consumed nothing.  Every byte belongs to one
segment; output and counts are those of the segments. -/
theorem processStats_scans {rules : List Rule} {options : Options} {engine : Engine}
    (compiled : compile rules options = .ok engine) (unfiltered : engine.anchors = none)
    (text : Bytes) :
    ∃ segments,
      engine.Scans text 0 segments ∧ (∀ other, engine.Scans text 0 other → other = segments) ∧
        Segment.sourceOf segments = text ∧
        (∀ place < text.length, ∃ index, Segment.Covers segments index place ∧
          ∀ other, Segment.Covers segments other place → other = index) ∧
        Accounts segments (engine.processStats text).1 (engine.processStats text).2 := by
  have wellFormed := wellFormed_of_compile compiled
  have scans := scans_segmentsFrom wellFormed (Nat.zero_le text.length)
  have source := scans.sourceOf_eq wellFormed
  rw [List.drop_zero] at source
  refine ⟨_, scans, fun other again => again.unique scans, source, ?_, ?_⟩
  · intro place inside
    apply Segment.covers_unique
    rw [source]
    exact inside
  · exact .of_joins (segmentsWith_unfiltered wellFormed unfiltered Anchor.firstEnd? text)

/-- Two rules of one name: the first replaces `b`, and the second, whose pattern
is empty, inserts a dash before every other character, one of them of two
bytes. -/
theorem processStats_scans_empty_pattern :
    ∃ engine,
      compile [⟨[0x78], [0x62], [0x32]⟩, ⟨[0x78], [], [0x2D]⟩] {} = .ok engine ∧
        engine.anchors = none ∧
        engine.processStats [0x61, 0xC3, 0xA9, 0x62] =
          ([0x2D, 0x61, 0x2D, 0xC3, 0xA9, 0x32], ⟨3, [([0x78], 3)]⟩) ∧
        ∃ segments, engine.Scans [0x61, 0xC3, 0xA9, 0x62] 0 segments ∧
          Accounts segments [0x2D, 0x61, 0x2D, 0xC3, 0xA9, 0x32] ⟨3, [([0x78], 3)]⟩ := by
  obtain ⟨engine, compiled⟩ :
      ∃ engine, compile [⟨[0x78], [0x62], [0x32]⟩, ⟨[0x78], [], [0x2D]⟩] {} = .ok engine :=
    exists_compile (Symbols.fault?_eq_none_iff.mp (by decide)) _
  have fields := (compile_eq_ok_iff.mp compiled).2
  have unfiltered : engine.anchors = none := by
    rw [fields]
    decide +kernel
  have processed : engine.processStats [0x61, 0xC3, 0xA9, 0x62] =
      ([0x2D, 0x61, 0x2D, 0xC3, 0xA9, 0x32], ⟨3, [([0x78], 3)]⟩) := by
    rw [fields]
    decide +kernel
  obtain ⟨segments, scans, _, _, _, accounts⟩ :=
    processStats_scans compiled unfiltered [0x61, 0xC3, 0xA9, 0x62]
  rw [processed] at accounts
  exact ⟨engine, compiled, unfiltered, processed, segments, scans, accounts⟩

end Engine

end Stencil
