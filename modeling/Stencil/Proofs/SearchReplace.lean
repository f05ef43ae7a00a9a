import Stencil.Proofs.ScanSemantics

/-!
# Searching and replacing

`findAll` and the scan of an engine are loops of their own, each with its own
way past a match that consumed nothing.  With one rule they find the same
matches, in order and without overlap, and the output is the text with every
match replaced where it stands.
-/

namespace Stencil

/-- The text from a place on, with each match in turn replaced by the text
beside it. -/
def Match.splice (text : Bytes) (place : Nat) : List (Match × Bytes) → Bytes
  | [] => text.drop place
  | (found, expansion) :: later =>
      text.between place found.start ++ expansion ++ splice text found.stop later

/-- A match begins before a later one, and ends before it or where it begins. -/
def Match.Before (found later : Match) : Prop :=
  found.start < later.start ∧ found.stop ≤ later.start

/-- The match of a segment with its expansion. -/
def Segment.edit? : Segment → Option (Match × Bytes)
  | .copied _ => none
  | .replaced _ found expansion | .inserted _ found expansion _ => some (found, expansion)

theorem Segment.map_edit? (segments : List Segment) :
    (segments.filterMap edit?).map Prod.fst = segments.filterMap match? := by
  rw [List.map_filterMap]
  congr 1
  funext segment
  cases segment <;> rfl

theorem Segment.length_match? (segments : List Segment) :
    (segments.filterMap match?).length = (segments.filterMap rule?).length := by
  rw [List.length_filterMap_eq_countP, List.length_filterMap_eq_countP]
  congr 1
  funext segment
  cases segment <;> rfl

/-- What is copied in front of the first match can be cut off. -/
theorem Match.splice_skip {text : Bytes} {place behind : Nat} {edits : List (Match × Bytes)}
    (ordered : place ≤ behind) (ahead : ∀ edit ∈ edits, behind ≤ edit.1.start) :
    splice text place edits = text.between place behind ++ splice text behind edits := by
  cases edits with
  | nil => exact (Bytes.between_append_drop ordered).symm
  | cons edit later =>
      have begins := ahead edit List.mem_cons_self
      simp only [splice]
      rw [← Bytes.between_append_between ordered begins, List.append_assoc, List.append_assoc,
        List.append_assoc]

theorem Utf8.First.length_eq {char text : Bytes} (nonempty : text ≠ []) (first : First char text) :
    char.length = width text := by
  have fits : width text ≤ text.length := by
    cases known : width? text with
    | some n =>
        rw [width, known]
        exact (encode_codePoint known).2
    | none =>
        rw [width, known]
        exact List.length_pos_iff.mpr nonempty
  rw [(first_iff nonempty).mp first, List.length_take, Nat.min_eq_left fits]

namespace Engine

section Edits

variable {engine : Engine} {text : Bytes}

/-- A segment copies what it covers, or puts an expansion in place of a match
that begins with it and copies what it covers behind the match. -/
theorem Cuts.edit_cases (wellFormed : engine.WellFormed) {place behind : Nat} {segment : Segment}
    (cuts : engine.Cuts text place segment behind) :
    (segment.edit? = none ∧ segment.output = text.between place behind) ∨
      ∃ found expansion, segment.edit? = some (found, expansion) ∧
        found.matched = ⟨place, text.between place found.stop⟩ ∧ found.stop ≤ behind ∧
        segment.output = expansion ++ text.between found.stop behind := by
  have source := (cuts.source wellFormed).2.2
  cases cuts with
  | copied _ _ _ => exact .inl ⟨rfl, source⟩
  | replaced inside wins _ =>
      have located := (wins.located wellFormed (Nat.le_of_lt inside)).1
      refine .inr ⟨_, _, rfl, located, Nat.le_refl _, ?_⟩
      rw [Bytes.between_self, List.append_nil]
      rfl
  | inserted inside wins nothing _ =>
      have located := (wins.located wellFormed (Nat.le_of_lt inside)).1
      refine .inr ⟨_, _, rfl, located, by omega, ?_⟩
      rw [nothing, ← source]
      rfl

/-- The scan finds its matches in order, and none in front of where it stands. -/
theorem Scans.edits_before (wellFormed : engine.WellFormed) {place : Nat}
    {segments : List Segment} (scans : engine.Scans text place segments) :
    (∀ edit ∈ segments.filterMap Segment.edit?, place ≤ edit.1.start) ∧
      (segments.filterMap Segment.edit?).Pairwise fun edit later => edit.1.Before later.1 := by
  induction scans with
  | done => exact ⟨by simp, .nil⟩
  | @cut place behind segment segments cuts _ ih =>
      obtain ⟨ahead, ordered⟩ := ih
      have later := (cuts.source wellFormed).1
      rcases cuts.edit_cases wellFormed with ⟨none, _⟩ | ⟨found, expansion, some, located, ends, _⟩
      · rw [List.filterMap_cons_none none]
        refine ⟨?_, ordered⟩
        intro edit member
        exact Nat.le_trans (Nat.le_of_lt later) (ahead edit member)
      · have begins : found.start = place := congrArg Slice.start located
        rw [List.filterMap_cons_some some]
        constructor
        · intro edit member
          rcases List.mem_cons.mp member with rfl | member
          · exact Nat.le_of_eq begins.symm
          · exact Nat.le_trans (Nat.le_of_lt later) (ahead edit member)
        · refine .cons ?_ ordered
          intro edit member
          have beyond := ahead edit member
          exact ⟨by dsimp only; omega, Nat.le_trans ends beyond⟩

theorem Scans.matched_of (wellFormed : engine.WellFormed) {place : Nat} {segments : List Segment}
    (scans : engine.Scans text place segments) :
    ∀ found ∈ segments.filterMap Segment.match?, found.matched.Of text := by
  rw [← Segment.map_edit?]
  induction scans with
  | done => simp
  | cut cuts _ ih =>
      rcases cuts.edit_cases wellFormed with ⟨none, _⟩ | ⟨found, expansion, some, located, _⟩
      · rw [List.filterMap_cons_none none]
        exact ih
      · rw [List.filterMap_cons_some some, List.map_cons]
        intro other member
        rcases List.mem_cons.mp member with rfl | member
        · rw [located]
          exact List.take_prefix _ _
        · exact ih other member

theorem Scans.outputOf_eq_splice (wellFormed : engine.WellFormed) {place : Nat}
    {segments : List Segment} (scans : engine.Scans text place segments) :
    outputOf segments = Match.splice text place (segments.filterMap Segment.edit?) := by
  induction scans with
  | done => simp [outputOf, Match.splice]
  | @cut place behind segment segments cuts rest ih =>
      have ahead := (rest.edits_before wellFormed).1
      have later := (cuts.source wellFormed).1
      have output : outputOf (segment :: segments) = segment.output ++ outputOf segments :=
        List.flatMap_cons
      rw [output, ih]
      rcases cuts.edit_cases wellFormed with
        ⟨none, copied⟩ | ⟨found, expansion, some, located, ends, replaced⟩
      · rw [List.filterMap_cons_none none, copied]
        exact (Match.splice_skip (Nat.le_of_lt later) ahead).symm
      · have begins : found.start = place := congrArg Slice.start located
        rw [List.filterMap_cons_some some, replaced, Match.splice, begins, Bytes.between_self,
          List.nil_append, List.append_assoc, ← Match.splice_skip ends ahead]

end Edits

section OneRule

variable {engine : Engine} {text : Bytes} {rule : Rule} {pattern : Pattern}

theorem Wins.of_single (single : engine.rules = [⟨rule, pattern⟩]) {place index : Nat}
    {compiled : CompiledRule} {found : Match}
    (wins : engine.Wins text place index compiled found) : compiled = ⟨rule, pattern⟩ := by
  have listed := List.mem_of_getElem? wins.listed
  rw [single] at listed
  exact List.mem_singleton.mp listed

/-- With one rule, the search and the scan find the same matches from any place
on that the scan arrives at. -/
theorem Scans.edits_eq_findFrom (wellFormed : engine.WellFormed)
    (single : engine.rules = [⟨rule, pattern⟩]) (lenient : engine.options.strictBlocks = false)
    {place : Nat} {segments : List Segment} (scans : engine.Scans text place segments) :
    segments.filterMap Segment.edit? =
      (pattern.findFrom (Cursor.inside text place)).map fun found =>
        (found, Template.expand engine.options.symbols.sigil rule.replacement found) := by
  induction scans with
  | done =>
      rw [Pattern.findFrom, if_pos (by simp)]
      rfl
  | @cut place behind segment segments cuts _ ih =>
      have inside := cuts.inside
      have bound := Nat.le_of_lt inside
      have more : (Cursor.inside text place).rest ≠ [] := Bytes.drop_ne_nil inside
      rw [Pattern.findFrom, if_neg more]
      cases cuts with
      | copied _ silent first =>
          have missed := silent ⟨rule, pattern⟩ (by simp [single])
          rw [lenient, Pattern.matchAt?_ofNat bound] at missed
          have width := first.length_eq (Bytes.drop_ne_nil inside)
          rw [missed, Cursor.inside_advance, Cursor.inside_rest, ← width, ← ih]
          rfl
      | replaced _ wins consumed =>
          obtain rfl := wins.of_single single
          have hit := wins.matched
          rw [lenient, Pattern.matchAt?_ofNat bound] at hit
          rw [hit]
          dsimp only
          rw [Cursor.inside_rest, if_pos ((wins.consumed_iff wellFormed bound).mpr consumed),
            wins.moveTo_eq wellFormed bound, List.map_cons, ← ih]
          rfl
      | inserted _ wins nothing first =>
          obtain rfl := wins.of_single single
          have hit := wins.matched
          rw [lenient, Pattern.matchAt?_ofNat bound] at hit
          have width := first.length_eq (Bytes.drop_ne_nil inside)
          have same := mt (wins.consumed_iff wellFormed bound).mp (by omega)
          rw [hit]
          dsimp only
          rw [Cursor.inside_rest, if_neg same, Cursor.inside_advance, ← width, List.map_cons, ← ih]
          rfl

end OneRule

end Engine

namespace Pattern

/-- An engine with one rule makes exactly the matches that the search for its
pattern finds.  They lie in the text in order and without overlap, and the output
is the text with each of them replaced by its expansion. -/
theorem findAll_agrees {symbols : Symbols} (valid : symbols.Valid) (rule : Rule) (text : Bytes) :
    ∃ pattern engine,
      Pattern.compile rule.pattern symbols = .ok pattern ∧
        Engine.compile [rule] { symbols, strictBlocks := false, disablePrefilter := true } =
          .ok engine ∧
        (engine.segments text).filterMap Segment.match? = pattern.findAll text ∧
        (engine.processStats text).2.total = (pattern.findAll text).length ∧
        (engine.processStats text).1 =
          Match.splice text 0 ((pattern.findAll text).map fun found =>
            (found, Template.expand symbols.sigil rule.replacement found)) ∧
        (pattern.findAll text).Pairwise Match.Before ∧
        ∀ found ∈ pattern.findAll text, found.matched.Of text := by
  have marks : ({ symbols, strictBlocks := false, disablePrefilter := true } :
      Options).normalized.symbols = symbols := valid.orStandard_eq
  obtain ⟨engine, built⟩ : ∃ engine, Engine.compile [rule]
      { symbols, strictBlocks := false, disablePrefilter := true } = .ok engine :=
    Engine.exists_compile (by rw [marks]; exact valid) [rule]
  have wellFormed := Engine.wellFormed_of_compile built
  have fields := (Engine.compile_eq_ok_iff.mp built).2
  rw [marks] at fields
  have single : engine.rules = [⟨rule, (CompiledRule.of symbols rule).pattern⟩] := by
    rw [fields]
    rfl
  have sigil : engine.options.symbols.sigil = symbols.sigil := by
    rw [fields]
    exact congrArg Symbols.sigil marks
  have cut : engine.segments text = engine.segmentsFrom (Cursor.inside text 0) := by
    rw [fields]
    rfl
  have scans := Engine.scans_segmentsFrom wellFormed (Nat.zero_le text.length)
  have edits := scans.edits_eq_findFrom wellFormed single (by rw [fields]; rfl)
  rw [sigil] at edits
  have same : (engine.segments text).filterMap Segment.match? =
      (CompiledRule.of symbols rule).pattern.findAll text := by
    rw [cut, ← Segment.map_edit?, edits, List.map_map]
    exact List.map_id _
  refine ⟨(CompiledRule.of symbols rule).pattern, engine,
    Pattern.compile_eq_ok_iff.mpr ⟨valid, rfl⟩, built, same, ?_, ?_, ?_, ?_⟩
  · rw [← same, Segment.length_match?]
    rfl
  · have output : (engine.processStats text).1 = Engine.outputOf (engine.segments text) := rfl
    rw [output, cut, scans.outputOf_eq_splice wellFormed, edits]
    rfl
  · rw [← same, cut, ← Segment.map_edit?, List.pairwise_map]
    exact (scans.edits_before wellFormed).2
  · rw [← same, cut]
    exact scans.matched_of wellFormed

/-- The optional block `${(}{)}b?` in `a(b)`, a broken character and `c`: it matches
the block, and nothing in front of every other character. -/
theorem findAll_agrees_optional_block :
    Symbols.standard.Valid ∧
      ∃ pattern engine,
        Pattern.compile [0x24, 0x7B, 0x28, 0x7D, 0x7B, 0x29, 0x7D, 0x62, 0x3F] .standard =
          .ok pattern ∧
          Engine.compile
            [⟨[], [0x24, 0x7B, 0x28, 0x7D, 0x7B, 0x29, 0x7D, 0x62, 0x3F], [0x3C, 0x24, 0x62, 0x3E]⟩]
            { symbols := .standard, strictBlocks := false, disablePrefilter := true } =
              .ok engine ∧
          (pattern.findAll [0x61, 0x28, 0x62, 0x29, 0xC3, 0x63]).map
              (fun found => (found.start, found.stop)) = [(0, 0), (1, 4), (4, 4), (5, 5)] ∧
          (engine.processStats [0x61, 0x28, 0x62, 0x29, 0xC3, 0x63]).2.total = 4 ∧
          (engine.processStats [0x61, 0x28, 0x62, 0x29, 0xC3, 0x63]).1 =
            [0x3C, 0x3E, 0x61, 0x3C, 0x62, 0x3E, 0x3C, 0x3E, 0xC3, 0x3C, 0x3E, 0x63] := by
  have valid : Symbols.standard.Valid := Symbols.fault?_eq_none_iff.mp (by decide)
  obtain ⟨pattern, engine, compiled, built, _, total, output, _⟩ :=
    findAll_agrees valid
      ⟨[], [0x24, 0x7B, 0x28, 0x7D, 0x7B, 0x29, 0x7D, 0x62, 0x3F], [0x3C, 0x24, 0x62, 0x3E]⟩
      [0x61, 0x28, 0x62, 0x29, 0xC3, 0x63]
  obtain rfl := (Pattern.compile_eq_ok_iff.mp compiled).2
  refine ⟨valid, _, engine, compiled, built, by decide +kernel, ?_, ?_⟩
  · rw [total]
    decide +kernel
  · rw [output]
    decide +kernel

end Pattern

end Stencil
