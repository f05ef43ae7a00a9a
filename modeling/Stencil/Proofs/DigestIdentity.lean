import Stencil.Proofs.Engine
import Stencil.Proofs.Quotation
import Stencil.RuleFile.Basic

/-!
# What a digest identifies

The text a digest is taken of lists the marks in force, the strictness and the
two texts of every rule, all of it quoted.  Because quoted texts can be told
apart, that text determines what it lists.  And what it lists is all that matters
for the output of the rules: their names are only counted under.
-/

namespace Stencil

theorem Symbols.eq_of_marks {left right : Symbols} (sigil : left.sigil = right.sigil)
    (opener : left.opener = right.opener) (closer : left.closer = right.closer) :
    left = right := by
  cases left
  cases right
  simp_all

/-- The rule without its name. -/
def Rule.unnamed (rule : Rule) : Rule :=
  { rule with name := [] }

/-- The two texts of a rule that decide what it does. -/
def Rule.texts (rule : Rule) : Bytes × Bytes :=
  (rule.pattern, rule.replacement)

theorem Rule.map_unnamed (rules : List Rule) :
    rules.map Rule.unnamed = (rules.map Rule.texts).map fun texts => ⟨[], texts.1, texts.2⟩ := by
  simp [unnamed, texts]

def CompiledRule.unnamed (compiled : CompiledRule) : CompiledRule :=
  { compiled with rule := compiled.rule.unnamed }

@[simp] theorem CompiledRule.pattern_unnamed (compiled : CompiledRule) :
    compiled.unnamed.pattern = compiled.pattern :=
  rfl

/-- The segment with the rule that won, if one did, without its name. -/
def Segment.unnamed : Segment → Segment
  | .copied text => .copied text
  | .replaced rule found expansion => .replaced rule.unnamed found expansion
  | .inserted rule found expansion char => .inserted rule.unnamed found expansion char

@[simp] theorem Segment.output_unnamed (segment : Segment) :
    segment.unnamed.output = segment.output := by
  cases segment <;> rfl

namespace Engine

/-- The engine with the names of its rules taken off. -/
def unnamed (engine : Engine) : Engine :=
  { engine with rules := engine.rules.map CompiledRule.unnamed }

theorem firstMatch?_unnamed (strict : Bool) (cursor : Cursor) (index : Nat)
    (rules : List CompiledRule) :
    firstMatch? strict cursor index (rules.map CompiledRule.unnamed) =
      (firstMatch? strict cursor index rules).map
        fun (index, rule, found) => (index, rule.unnamed, found) := by
  induction rules generalizing index with
  | nil => rfl
  | cons compiled rules ih =>
      rw [List.map_cons, firstMatch?, firstMatch?]
      cases matched : compiled.pattern.matchFrom? strict cursor with
      | some found => simp [CompiledRule.unnamed, matched]
      | none => simp [CompiledRule.unnamed, matched, ih]

theorem segmentAt_unnamed (engine : Engine) (cursor : Cursor) :
    engine.unnamed.segmentAt cursor =
      ((engine.segmentAt cursor).1.unnamed, (engine.segmentAt cursor).2) := by
  simp only [segmentAt, unnamed, firstMatch?_unnamed]
  cases firstMatch? engine.options.strictBlocks cursor 0 engine.rules with
  | none => rfl
  | some first =>
      obtain ⟨index, rule, found⟩ := first
      simp only [Option.map_some]
      split <;> rfl

theorem segmentsFrom_unnamed (engine : Engine) (cursor : Cursor) :
    engine.unnamed.segmentsFrom cursor = (engine.segmentsFrom cursor).map Segment.unnamed := by
  fun_induction segmentsFrom engine cursor with
  | case1 cursor empty =>
      rw [segmentsFrom, dif_pos empty]
      rfl
  | case2 cursor more _ ih =>
      rw [segmentsFrom, dif_neg more]
      simp only [segmentAt_unnamed, ih, List.map_cons]

theorem segmentsFromAnchors_unnamed (find : Anchor.Search) (engine : Engine)
    (anchors : List Bytes) (text : Bytes) (cursor : Cursor) :
    engine.unnamed.segmentsFromAnchors find anchors text cursor =
      (engine.segmentsFromAnchors find anchors text cursor).map Segment.unnamed := by
  fun_induction segmentsFromAnchors find engine anchors text cursor with
  | case1 cursor empty =>
      rw [segmentsFromAnchors, if_pos empty]
      rfl
  | case2 cursor more none =>
      rw [segmentsFromAnchors, if_neg more]
      simp [none, Segment.unnamed]
  | case3 cursor more gap next empty =>
      rw [segmentsFromAnchors, if_neg more]
      simp [next, empty, Segment.unnamed]
  | case4 cursor more gap next inside _ ih =>
      rw [segmentsFromAnchors, if_neg more]
      simp [next, inside, segmentAt_unnamed, ih, Segment.unnamed]

theorem segments_unnamed (engine : Engine) (text : Bytes) :
    engine.unnamed.segments text = (engine.segments text).map Segment.unnamed := by
  have ruleless : engine.unnamed.rules.isEmpty = engine.rules.isEmpty := by simp [unnamed]
  have anchors : engine.unnamed.anchors = engine.anchors := rfl
  unfold segments segmentsWith
  rw [ruleless, anchors]
  split
  · rfl
  split
  · exact segmentsFrom_unnamed engine _
  · exact segmentsFromAnchors_unnamed _ engine _ text _

theorem process_unnamed (engine : Engine) (text : Bytes) :
    engine.unnamed.process text = engine.process text := by
  simp [process, outputOf, segments_unnamed, List.flatMap_map]

theorem compile_unnamed {rules : List Rule} {options : Options} {engine : Engine}
    (compiled : compile rules options = .ok engine) :
    compile (rules.map Rule.unnamed) options = .ok engine.unnamed := by
  obtain ⟨valid, rfl⟩ := compile_eq_ok_iff.mp compiled
  refine compile_eq_ok_iff.mpr ⟨valid, ?_⟩
  have each : CompiledRule.of options.normalized.symbols ∘ Rule.unnamed =
      CompiledRule.unnamed ∘ CompiledRule.of options.normalized.symbols := rfl
  simp [unnamed, each, List.mapM_map, Function.comp_def]

/-- Rules with the same texts have the same output. -/
theorem process_eq_of_texts {left right : List Rule} {options : Options} {first second : Engine}
    (same : left.map Rule.texts = right.map Rule.texts)
    (firstCompiled : compile left options = .ok first)
    (secondCompiled : compile right options = .ok second) (text : Bytes) :
    first.process text = second.process text := by
  have rules : left.map Rule.unnamed = right.map Rule.unnamed := by
    rw [Rule.map_unnamed, Rule.map_unnamed, same]
  have engines : first.unnamed = second.unnamed := by
    have compiled := compile_unnamed firstCompiled
    rw [rules, compile_unnamed secondCompiled, Except.ok.injEq] at compiled
    exact compiled.symm
  rw [← process_unnamed first, ← process_unnamed second, engines]

end Engine

namespace RuleFile

/-- The line a rule adds to the text of a digest. -/
def ruleLine (rule : Rule) : Bytes :=
  Quoted.quote rule.pattern ++ byte ' ' :: Quoted.quote rule.replacement ++ [byte '\n']

/-- The words for strictness, up to the end of their line. -/
def strictnessLine (strict : Bool) : Bytes :=
  bytes (if strict then "true" else "false") ++ [byte '\n']

theorem digestText_eq (file : RuleFile) :
    file.digestText =
      Quoted.quote file.options.symbols.sigil ++ byte ' ' ::
        (Quoted.quote file.options.symbols.opener ++ byte ' ' ::
          (Quoted.quote file.options.symbols.closer ++ byte ' ' ::
            (strictnessLine file.strictBlocks ++ file.rules.flatMap ruleLine))) := by
  have lines : file.digestText =
      Bytes.join [byte ' ']
        [ Quoted.quote file.options.symbols.sigil, Quoted.quote file.options.symbols.opener,
          Quoted.quote file.options.symbols.closer,
          bytes (if file.options.strictBlocks then "true" else "false") ] ++
        byte '\n' :: file.rules.flatMap ruleLine := rfl
  have strict : file.strictBlocks = file.options.strictBlocks := rfl
  rw [lines, strict]
  simp [Bytes.join, strictnessLine]

theorem strictnessLine_append_inj {left right : Bool} {first second : Bytes}
    (same : strictnessLine left ++ first = strictnessLine right ++ second) :
    left = right ∧ first = second := by
  have yes : strictnessLine true = byte 't' :: (bytes "rue" ++ [byte '\n']) := by decide
  have no : strictnessLine false = byte 'f' :: (bytes "alse" ++ [byte '\n']) := by decide
  cases left <;> cases right
  · exact ⟨rfl, List.append_cancel_left same⟩
  · rw [yes, no] at same
    exact absurd (List.cons.inj same).1 (by decide)
  · rw [yes, no] at same
    exact absurd (List.cons.inj same).1 (by decide)
  · exact ⟨rfl, List.append_cancel_left same⟩

theorem flatMap_ruleLine_inj {left right : List Rule}
    (same : left.flatMap ruleLine = right.flatMap ruleLine) :
    left.map Rule.texts = right.map Rule.texts := by
  induction left generalizing right with
  | nil =>
      cases right with
      | nil => rfl
      | cons rule right => simp [ruleLine, Quoted.quote] at same
  | cons rule left ih =>
      cases right with
      | nil => simp [ruleLine, Quoted.quote] at same
      | cons other right =>
          simp only [List.flatMap_cons, ruleLine, List.append_assoc, List.cons_append,
            List.nil_append] at same
          obtain ⟨pattern, behindPattern⟩ := Quoted.quote_append_inj same
          obtain ⟨replacement, behindRule⟩ :=
            Quoted.quote_append_inj (List.cons.inj behindPattern).2
          have later := ih (List.cons.inj behindRule).2
          rw [List.map_cons, List.map_cons, later, Rule.texts, Rule.texts, pattern, replacement]

theorem flatMap_ruleLine_texts (rules : List Rule) :
    rules.flatMap ruleLine =
      (rules.map Rule.texts).flatMap fun texts => ruleLine ⟨[], texts.1, texts.2⟩ := by
  rw [List.flatMap_map]
  rfl

/-- The text of a digest determines what it lists. -/
theorem digestText_eq_iff {left right : RuleFile} :
    left.digestText = right.digestText ↔
      left.options.symbols = right.options.symbols ∧ left.strictBlocks = right.strictBlocks ∧
        left.rules.map Rule.texts = right.rules.map Rule.texts := by
  rw [digestText_eq, digestText_eq]
  constructor
  · intro same
    obtain ⟨sigil, behindSigil⟩ := Quoted.quote_append_inj same
    obtain ⟨opener, behindOpener⟩ := Quoted.quote_append_inj (List.cons.inj behindSigil).2
    obtain ⟨closer, behindCloser⟩ := Quoted.quote_append_inj (List.cons.inj behindOpener).2
    obtain ⟨strict, lines⟩ := strictnessLine_append_inj (List.cons.inj behindCloser).2
    exact ⟨Symbols.eq_of_marks sigil opener closer, strict, flatMap_ruleLine_inj lines⟩
  · rintro ⟨symbols, strict, texts⟩
    have leftLines := flatMap_ruleLine_texts left.rules
    have rightLines := flatMap_ruleLine_texts right.rules
    rw [symbols, strict, leftLines, rightLines, texts]

theorem options_symbols {file : RuleFile} (sound : file.fault? = none) :
    file.options.symbols = file.symbols.getD .standard ∧ file.options.symbols.Valid := by
  cases chosen : file.symbols with
  | none =>
      have standard : file.options.symbols = .standard := by
        rw [options, chosen]
        rfl
      exact ⟨standard, standard ▸ Symbols.fault?_eq_none_iff.mp (by decide)⟩
  | some symbols =>
      have valid : symbols.Valid := by
        rw [← Symbols.fault?_eq_none_iff]
        unfold fault? at sound
        rw [chosen, Option.bind_some] at sound
        split at sound
        · cases sound
        · assumption
      have own : file.options.symbols = symbols := by
        simp [options, Options.normalized, chosen, valid.orStandard_eq]
      exact ⟨own, own ▸ valid⟩

theorem exists_engine {file : RuleFile} (sound : file.fault? = none) :
    ∃ engine, file.engine = .ok engine := by
  have valid := (options_symbols sound).2
  have normalized : file.options.normalized.symbols.Valid := by
    rwa [Options.normalized, valid.orStandard_eq]
  exact Engine.exists_compile normalized file.rules

/-- Two files have the same text of their digest exactly when they have the same
marks in force, the same strictness and the same texts of their rules.  Unless
their digests collide, the same digest then means the same output for every text. -/
theorem digest_identifies {left right : RuleFile} (leftSound : left.fault? = none)
    (rightSound : right.fault? = none) :
    (left.digestText = right.digestText ↔
      left.symbols.getD .standard = right.symbols.getD .standard ∧
        left.strictBlocks = right.strictBlocks ∧
        left.rules.map Rule.texts = right.rules.map Rule.texts) ∧
      (¬ Sha256.Collision left.digestText right.digestText → left.digest = right.digest →
        ∃ first second, left.engine = .ok first ∧ right.engine = .ok second ∧
          ∀ text, first.process text = second.process text) := by
  constructor
  · rw [digestText_eq_iff, (options_symbols leftSound).1, (options_symbols rightSound).1]
  · intro apart sameDigest
    have sameText := Sha256.eq_of_digest_eq apart (Sha256.hexDigest_eq_iff.mp sameDigest)
    obtain ⟨symbols, strict, texts⟩ := digestText_eq_iff.mp sameText
    have sameOptions : left.options = right.options :=
      calc
        left.options = ⟨left.options.symbols, left.strictBlocks, false⟩ := rfl
        _ = ⟨right.options.symbols, right.strictBlocks, false⟩ := by rw [symbols, strict]
        _ = right.options := rfl
    obtain ⟨first, firstCompiled⟩ := exists_engine leftSound
    obtain ⟨second, secondCompiled⟩ := exists_engine rightSound
    refine ⟨first, second, firstCompiled, secondCompiled, ?_⟩
    rw [engine, sameOptions] at firstCompiled
    exact Engine.process_eq_of_texts texts firstCompiled secondCompiled

/-- Names and spelled out standard marks do not matter, also for texts with
quotes, backslashes and bytes outside any character. -/
theorem digest_identifies_renamed :
    ∃ first second,
      RuleFile.engine { name := [0x61], rules := [⟨[0x78], [0x22, 0xFF, 0x24], [0x5C]⟩] } =
          .ok first ∧
        RuleFile.engine
            { symbols := some .standard, rules := [⟨[], [0x22, 0xFF, 0x24], [0x5C]⟩] } =
          .ok second ∧
        ∀ text, first.process text = second.process text := by
  have identified := @digest_identifies
    { name := [0x61], rules := [⟨[0x78], [0x22, 0xFF, 0x24], [0x5C]⟩] }
    { symbols := some .standard, rules := [⟨[], [0x22, 0xFF, 0x24], [0x5C]⟩] } rfl rfl
  have sameText := identified.1.mpr ⟨rfl, rfl, rfl⟩
  exact identified.2 (fun collision => collision.1 sameText)
    (congrArg Sha256.hexDigest sameText)

end RuleFile

end Stencil
