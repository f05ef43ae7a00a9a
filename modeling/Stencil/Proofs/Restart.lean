import Stencil.Proofs.PrefilterRefinement
import Stencil.Proofs.ScanSemantics
import Stencil.Proofs.Translation

/-!
# Stopping and starting again

A scan can be stopped at any place it reaches and started again on the rest of
the text, as if that were all there is: the output so far and the output of the
rest are the whole output, and the counts add up.
-/

namespace Stencil

namespace Engine

section Unfiltered

variable {engine : Engine} {text : Bytes}

/-- What the scan has yet to cut is what it cuts from the place where it stands. -/
theorem segmentsFrom_behind (wellFormed : engine.WellFormed) {place : Nat}
    (inside : place ≤ text.length) {done ahead : List Segment}
    (cut : engine.segmentsFrom (Cursor.inside text place) = done ++ ahead) :
    ∃ behind, place ≤ behind ∧ behind ≤ text.length ∧
      Segment.sourceOf done = text.between place behind ∧
      engine.segmentsFrom (Cursor.inside text behind) = ahead := by
  induction done generalizing place with
  | nil => exact ⟨place, Nat.le_refl _, inside, by simp [Segment.sourceOf], cut⟩
  | cons first done ih =>
      rcases Nat.eq_or_lt_of_le inside with rfl | more
      · rw [segmentsFrom_end] at cut
        cases cut
      · obtain ⟨next, cuts, moved⟩ := segmentAt_cuts wellFormed more
        obtain ⟨later, bound, source⟩ := cuts.source wellFormed
        rw [segmentsFrom_inside more moved, List.cons_append, List.cons.injEq] at cut
        obtain ⟨rfl, cut⟩ := cut
        obtain ⟨behind, ordered, behindInside, covered, rest⟩ := ih bound cut
        refine ⟨behind, by omega, behindInside, ?_, rest⟩
        rw [← Bytes.between_append_between (Nat.le_of_lt later) ordered, ← source, ← covered]
        rfl

end Unfiltered

section Anchored

variable {engine : Engine} {text : Bytes} {find : Anchor.Search} {anchors : List Bytes}

theorem segmentsFromAnchors_append (lawful : find.Lawful) (wellFormed : engine.WellFormed)
    (someAnchor : anchors ≠ []) (nonempty : [] ∉ anchors) (before : Bytes) {place : Nat}
    (inside : place ≤ text.length) :
    engine.segmentsFromAnchors find anchors (before ++ text)
        (Cursor.inside (before ++ text) (before.length + place)) =
      (engine.segmentsFromAnchors find anchors text (Cursor.inside text place)).map
        (Segment.shift before.length) := by
  generalize remaining : text.length - place = n
  induction n using Nat.strongRecOn generalizing place with
  | ind n ih =>
      have shifted := Anchor.next?_append lawful someAnchor nonempty before text place
      rcases Nat.eq_or_lt_of_le inside with rfl | more
      · rw [← List.length_append, segmentsFromAnchors_end, segmentsFromAnchors_end]
        rfl
      have moreBehind : before.length + place < (before ++ text).length := by
        rw [List.length_append]
        omega
      cases next : Anchor.next? find anchors text place with
      | none =>
          rw [next] at shifted
          rw [segmentsFromAnchors_none more next, segmentsFromAnchors_none moreBehind shifted,
            List.drop_length_add_append]
          rfl
      | some goal =>
          rw [next] at shifted
          obtain ⟨ordered, goalInside, _⟩ := Anchor.next?_eq_some lawful someAnchor nonempty next
          obtain ⟨behind, cuts, moved⟩ := segmentAt_cuts wellFormed goalInside
          obtain ⟨later, bound, _⟩ := cuts.source wellFormed
          have movedBehind : (Cursor.inside (before ++ text) (before.length + goal)).moveTo
              (engine.segmentAt (Cursor.inside (before ++ text) (before.length + goal))).2 =
                Cursor.inside (before ++ text) (before.length + behind) := by
            rw [Cursor.inside_append, segmentAt_shift, Cursor.moveTo_shift, moved,
              Cursor.inside_append]
          have start : Segment.copied ((before ++ text).between (before.length + place)
              (before.length + goal)) = .copied (text.between place goal) := by
            rw [Bytes.between, Bytes.between, List.drop_length_add_append, Nat.add_sub_add_left]
          rw [segmentsFromAnchors_some (Nat.add_le_add_left ordered _)
              (by rw [List.length_append]; omega) shifted movedBehind,
            segmentsFromAnchors_some ordered goalInside next moved, start,
            ih (text.length - behind) (by omega) bound rfl, Cursor.inside_append, segmentAt_shift]
          rfl

/-- Between two anchors the scan may also be stopped in front of the second; it
is then found at once. -/
theorem segmentsFromAnchors_behind (lawful : find.Lawful) (wellFormed : engine.WellFormed)
    (someAnchor : anchors ≠ []) (nonempty : [] ∉ anchors) {place : Nat}
    (inside : place ≤ text.length) {done ahead : List Segment}
    (cut : engine.segmentsFromAnchors find anchors text (Cursor.inside text place) =
      done ++ ahead) :
    ∃ behind, place ≤ behind ∧ behind ≤ text.length ∧
      Segment.sourceOf done = text.between place behind ∧
      Joins (engine.segmentsFromAnchors find anchors text (Cursor.inside text behind)) ahead := by
  generalize remaining : text.length - place = n
  induction n using Nat.strongRecOn generalizing place done with
  | ind n ih =>
      cases done with
      | nil =>
          refine ⟨place, Nat.le_refl _, inside, by simp [Segment.sourceOf], ?_⟩
          rw [cut]
          exact .refl _
      | cons first done =>
          rcases Nat.eq_or_lt_of_le inside with rfl | more
          · rw [segmentsFromAnchors_end] at cut
            cases cut
          cases next : Anchor.next? find anchors text place with
          | none =>
              rw [segmentsFromAnchors_none more next, List.cons_append, List.cons.injEq] at cut
              obtain ⟨rfl, rest⟩ := cut
              obtain ⟨rfl, rfl⟩ := List.append_eq_nil_iff.mp rest.symm
              refine ⟨text.length, inside, Nat.le_refl _, ?_, ?_⟩
              · rw [Bytes.between_length]
                simp [Segment.sourceOf, Segment.source]
              · rw [segmentsFromAnchors_end]
                exact .nil
          | some goal =>
              obtain ⟨ordered, goalInside, begins, _⟩ :=
                Anchor.next?_eq_some lawful someAnchor nonempty next
              obtain ⟨behind, cuts, moved⟩ := segmentAt_cuts wellFormed goalInside
              obtain ⟨later, bound, source⟩ := cuts.source wellFormed
              rw [segmentsFromAnchors_some ordered goalInside next moved, List.cons_append,
                List.cons.injEq] at cut
              obtain ⟨rfl, cut⟩ := cut
              cases done with
              | nil =>
                  have here : Anchor.next? find anchors text goal = some goal :=
                    (Anchor.next?_eq_some_iff lawful someAnchor nonempty).mpr
                      ⟨Nat.le_refl _, begins, by omega⟩
                  refine ⟨goal, ordered, Nat.le_of_lt goalInside, ?_, ?_⟩
                  · simp [Segment.sourceOf, Segment.source]
                  · rw [segmentsFromAnchors_some (Nat.le_refl _) goalInside here moved, cut,
                      Bytes.between_self]
                    exact .join [] (.refl _)
              | cons second done =>
                  rw [List.cons_append, List.cons.injEq] at cut
                  obtain ⟨rfl, cut⟩ := cut
                  obtain ⟨last, beyond, lastInside, covered, joins⟩ :=
                    ih (text.length - behind) (by omega) bound cut rfl
                  refine ⟨last, by omega, lastInside, ?_, joins⟩
                  rw [← Bytes.between_append_between ordered (by omega : goal ≤ last),
                    ← Bytes.between_append_between (Nat.le_of_lt later) beyond, ← source,
                    ← covered]
                  rfl

end Anchored

theorem outputOf_append (left right : List Segment) :
    outputOf (left ++ right) = outputOf left ++ outputOf right :=
  List.flatMap_append

theorem total_statsOf_append (left right : List Segment) :
    (statsOf (left ++ right)).total = (statsOf left).total + (statsOf right).total := by
  simp [statsOf]

theorem count_statsOf_append (left right : List Segment) (label : Bytes) :
    (statsOf (left ++ right)).perRule.count label =
      (statsOf left).perRule.count label + (statsOf right).perRule.count label := by
  simp [statsOf, Tally.count_ofLabels]

theorem outputOf_shift (n : Nat) (segments : List Segment) :
    outputOf (segments.map (Segment.shift n)) = outputOf segments := by
  rw [outputOf, outputOf, List.flatMap_map]
  congr 1
  funext segment
  cases segment <;> rfl

theorem statsOf_shift (n : Nat) (segments : List Segment) :
    statsOf (segments.map (Segment.shift n)) = statsOf segments := by
  have same : Segment.rule? ∘ Segment.shift n = Segment.rule? := by
    funext segment
    cases segment <;> rfl
  simp only [statsOf, List.filterMap_map, same]

/-- The scan of a text has cut the segments `done` and stands at a place. -/
structure Reaches (find : Anchor.Search) (engine : Engine) (text : Bytes) (done : List Segment)
    (place : Nat) : Prop where
  cut : done <+: engine.segmentsWith find text
  place : place = (Segment.sourceOf done).length

theorem segmentsWith_ruleless {engine : Engine} (ruleless : engine.rules.isEmpty = true)
    (find : Anchor.Search) (text : Bytes) : engine.segmentsWith find text = [.copied text] := by
  rw [segmentsWith, if_pos ruleless]

/-- Behind any segment, the scan goes on as the scan of the rest does, but for
an empty piece that the latter may copy first. -/
theorem segmentsWith_restart {find : Anchor.Search} (lawful : find.Lawful) {rules : List Rule}
    {options : Options} {engine : Engine} (compiled : compile rules options = .ok engine)
    {text : Bytes} {done ahead : List Segment}
    (cut : engine.segmentsWith find text = done ++ ahead) :
    ∃ place, place ≤ text.length ∧ Segment.sourceOf done = text.take place ∧
      Joins ((engine.segmentsWith find (text.drop place)).map (Segment.shift place)) ahead := by
  have wellFormed := wellFormed_of_compile compiled
  by_cases ruleless : engine.rules.isEmpty
  · rw [segmentsWith_ruleless ruleless] at cut
    cases done with
    | nil =>
        refine ⟨0, Nat.zero_le _, rfl, ?_⟩
        rw [segmentsWith_ruleless ruleless, ← List.nil_append ahead, ← cut]
        exact .refl _
    | cons first done =>
        rw [List.cons_append, List.cons.injEq] at cut
        obtain ⟨rfl, rest⟩ := cut
        obtain ⟨rfl, rfl⟩ := List.append_eq_nil_iff.mp rest.symm
        refine ⟨text.length, Nat.le_refl _, ?_, ?_⟩
        · simp [Segment.sourceOf, Segment.source]
        · rw [segmentsWith_ruleless ruleless, List.drop_length]
          exact .join [] .nil
  simp only [segmentsWith, if_neg ruleless] at cut ⊢
  cases filter : engine.anchors with
  | none =>
      rw [filter] at cut
      obtain ⟨behind, _, inside, covered, rest⟩ :=
        segmentsFrom_behind wellFormed (Nat.zero_le text.length) cut
      refine ⟨behind, inside, covered, ?_⟩
      dsimp only
      rw [← segmentsFrom_shift, ← rest]
      exact .refl _
  | some anchors =>
      rw [filter] at cut
      obtain ⟨_, someAnchor, nonempty⟩ := anchored_of_compile compiled filter
      obtain ⟨behind, _, inside, covered, joins⟩ :=
        segmentsFromAnchors_behind lawful wellFormed someAnchor nonempty
          (Nat.zero_le text.length) cut
      have again := segmentsFromAnchors_append lawful wellFormed someAnchor nonempty
        (text.take behind) (Nat.zero_le (text.drop behind).length)
      rw [List.take_append_drop, List.length_take_of_le inside, Nat.add_zero] at again
      rw [again] at joins
      exact ⟨behind, inside, covered, joins⟩

/-- At every place it reaches, a scan may be stopped and started again on the
rest of the text: outputs join up and counts add up.  For what is matched behind
a text does not depend on that text. -/
theorem processStats_restarts {find : Anchor.Search} (lawful : find.Lawful) {rules : List Rule}
    {options : Options} {engine : Engine} (compiled : compile rules options = .ok engine)
    {text : Bytes} {done : List Segment} {place : Nat}
    (reaches : Reaches find engine text done place) :
    Segment.sourceOf done = text.take place ∧
      (engine.processStatsWith find text).1 =
        outputOf done ++ (engine.processStatsWith find (text.drop place)).1 ∧
      (engine.processStatsWith find text).2.total =
        (statsOf done).total + (engine.processStatsWith find (text.drop place)).2.total ∧
      (∀ label, (engine.processStatsWith find text).2.perRule.count label =
        (statsOf done).perRule.count label +
          (engine.processStatsWith find (text.drop place)).2.perRule.count label) ∧
      (∀ (before after : Bytes) (k : Nat),
        engine.matchAt? (before ++ after) (before.length + k : Nat) =
          (engine.matchAt? after k).map fun (index, found) =>
            (index, found.shift before.length)) ∧
      ∀ (pattern : Pattern) (strict : Bool) (before after : Bytes) (k : Nat),
        pattern.matchAt? strict (before ++ after) (before.length + k : Nat) =
          (pattern.matchAt? strict after k).map (Match.shift before.length) := by
  obtain ⟨ahead, cut⟩ := reaches.cut
  obtain ⟨behind, inside, covered, joins⟩ := segmentsWith_restart lawful compiled cut.symm
  obtain rfl : place = behind := by
    rw [reaches.place, covered, List.length_take_of_le inside]
  have output := joins.outputOf_eq
  have stats := joins.statsOf_eq
  rw [outputOf_shift] at output
  rw [statsOf_shift] at stats
  simp only [processStatsWith]
  refine ⟨covered, ?_, ?_, ?_, engine.matchAt?_append, ?_⟩
  · rw [← cut, outputOf_append, output]
  · rw [← cut, total_statsOf_append, stats]
  · intro label
    rw [← cut, count_statsOf_append, stats]
  · intro pattern strict before after k
    exact pattern.matchAt?_append strict before after k

/-- With the anchors `abc` and `b`, behind the byte of a broken character and
`abc`: the rest is `b`. -/
theorem processStats_restarts_behind_anchor :
    ∃ engine,
      compile [⟨[], [0x61, 0x62, 0x63], [0x31]⟩, ⟨[], [0x62], [0x32]⟩] {} = .ok engine ∧
        Reaches Anchor.firstEnd? engine [0xC3, 0x61, 0x62, 0x63, 0x62]
          ((engine.segmentsWith Anchor.firstEnd? [0xC3, 0x61, 0x62, 0x63, 0x62]).take 2) 4 ∧
        (engine.processStatsWith Anchor.firstEnd? [0xC3, 0x61, 0x62, 0x63, 0x62]).1 =
          [0xC3, 0x31] ++ (engine.processStatsWith Anchor.firstEnd? [0x62]).1 := by
  obtain ⟨engine, compiled⟩ :
      ∃ engine, compile [⟨[], [0x61, 0x62, 0x63], [0x31]⟩, ⟨[], [0x62], [0x32]⟩] {} =
        .ok engine :=
    exists_compile (Symbols.fault?_eq_none_iff.mp (by decide)) _
  have fields := (compile_eq_ok_iff.mp compiled).2
  have reaches : Reaches Anchor.firstEnd? engine [0xC3, 0x61, 0x62, 0x63, 0x62]
      ((engine.segmentsWith Anchor.firstEnd? [0xC3, 0x61, 0x62, 0x63, 0x62]).take 2) 4 := by
    refine ⟨List.take_prefix _ _, ?_⟩
    rw [fields]
    decide +kernel
  have emitted : outputOf ((engine.segmentsWith Anchor.firstEnd?
      [0xC3, 0x61, 0x62, 0x63, 0x62]).take 2) = [0xC3, 0x31] := by
    rw [fields]
    decide +kernel
  have joined := (processStats_restarts Anchor.firstEnd?_lawful compiled reaches).2.1
  rw [emitted] at joined
  exact ⟨engine, compiled, reaches, joined⟩

end Engine

end Stencil
