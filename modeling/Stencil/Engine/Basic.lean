import Stencil.Engine.Anchor
import Stencil.Match
import Stencil.Rule
import Stencil.Tally
import Stencil.Template

/-!
# Engines

An engine is a list of rules compiled under one choice of symbols.  It reads a
text from left to right.  At every place the first rule that matches wins; its
expanded template stands for the matched text.  Where no rule matches, one
character is copied.  A match that consumed nothing is followed by a copied
character, so that the scan always moves on.

`segments` records how the text was cut; the output and the counts are read off
the segments.
-/

namespace Stencil

/-- How rules are compiled and applied. -/
structure Options where
  symbols : Symbols := {}
  /-- A block that is not closed fails its match instead of running to the end
  of the text. -/
  strictBlocks : Bool := false
  /-- Every place is tried, even when anchors could rule it out. -/
  disablePrefilter : Bool := false
  deriving DecidableEq

/-- The options with the standard symbols where none are chosen. -/
def Options.normalized (options : Options) : Options :=
  { options with symbols := options.symbols.orStandard }

/-- A rule and its compiled pattern. -/
structure CompiledRule where
  rule : Rule
  pattern : Pattern
  deriving DecidableEq

/-- Rules compiled under one choice of options. -/
structure Engine where
  rules : List CompiledRule
  options : Options
  /-- The anchors of all rules, when every rule has one and they are in use. -/
  anchors : Option (List Bytes)
  deriving DecidableEq

/-- How often rules were applied. -/
structure Stats where
  total : Int := 0
  perRule : Tally := []
  deriving DecidableEq, Inhabited

/-- A stretch of the input and what became of it. -/
inductive Segment where
  /-- Text that is copied. -/
  | copied (text : Bytes)
  /-- A match and its expansion. -/
  | replaced (rule : Rule) (found : Match) (expansion : Bytes)
  /-- A match that consumed nothing, its expansion, and the character copied
  after it. -/
  | inserted (rule : Rule) (found : Match) (expansion char : Bytes)

namespace Segment

/-- The input the segment covers. -/
def source : Segment → Bytes
  | .copied text => text
  | .replaced _ found _ => found.matched.text
  | .inserted _ _ _ char => char

/-- The output the segment produces. -/
def output : Segment → Bytes
  | .copied text => text
  | .replaced _ _ expansion => expansion
  | .inserted _ _ expansion char => expansion ++ char

/-- The rule that won, if one did. -/
def rule? : Segment → Option Rule
  | .copied _ => none
  | .replaced rule _ _ | .inserted rule _ _ _ => some rule

end Segment

namespace Engine

/-- Compiles rules in order. -/
def compile (rules : List Rule) (options : Options) : Except Symbols.Fault Engine :=
  let options := options.normalized
  match options.symbols.fault? with
  | some fault => .error fault
  | none => do
      let compiled ← rules.mapM fun rule => do
        return ⟨rule, ← Pattern.compile rule.pattern options.symbols⟩
      let anchors :=
        if options.disablePrefilter || compiled.isEmpty then none
        else compiled.mapM (·.pattern.anchor?)
      return { rules := compiled, options, anchors }

/-- The first rule that matches at the cursor, with its index. -/
def firstMatch? (strict : Bool) (cursor : Cursor) (index : Nat) :
    List CompiledRule → Option (Nat × Rule × Match)
  | [] => none
  | compiled :: rules =>
      match compiled.pattern.matchFrom? strict cursor with
      | some found => some (index, compiled.rule, found)
      | none => firstMatch? strict cursor (index + 1) rules

/-- The first rule that matches at an offset of a text, with its index. -/
def matchAt? (engine : Engine) (text : Bytes) (offset : Int) : Option (Nat × Match) :=
  match offset with
  | .negSucc _ => none
  | .ofNat n =>
      if n ≤ text.length then
        (firstMatch? engine.options.strictBlocks (Cursor.inside text n) 0 engine.rules).map
          fun (index, _, found) => (index, found)
      else
        none

/-- What happens at the cursor: a segment, and the text after it. -/
def segmentAt (engine : Engine) (cursor : Cursor) : Segment × Bytes :=
  let width := Utf8.width cursor.rest
  let char := cursor.rest.take width
  match firstMatch? engine.options.strictBlocks cursor 0 engine.rules with
  | none => (.copied char, cursor.rest.drop width)
  | some (_, rule, found) =>
      let expansion := Template.expand engine.options.symbols.sigil rule.replacement found
      if found.rest.length < cursor.rest.length then
        (.replaced rule found expansion, found.rest)
      else
        (.inserted rule found expansion char, cursor.rest.drop width)

theorem segmentAt_length (engine : Engine) (cursor : Cursor) (more : cursor.rest ≠ []) :
    (engine.segmentAt cursor).2.length < cursor.rest.length := by
  have wide := Utf8.width_pos cursor.rest
  have remaining := List.length_pos_iff.mpr more
  simp only [segmentAt]
  split
  · simp
    omega
  · split
    · assumption
    · simp
      omega

/-- Cuts the text after the cursor into segments, trying every place. -/
def segmentsFrom (engine : Engine) (cursor : Cursor) : List Segment :=
  if empty : cursor.rest = [] then
    []
  else
    have := engine.segmentAt_length cursor empty
    (engine.segmentAt cursor).1 ::
      segmentsFrom engine (cursor.moveTo (engine.segmentAt cursor).2)
termination_by cursor.rest.length
decreasing_by simpa [Cursor.moveTo] using this

/-- Cuts the text after the cursor into segments, trying only the places where
the search finds that an anchor begins. -/
def segmentsFromAnchors (find : Anchor.Search) (engine : Engine) (anchors : List Bytes)
    (text : Bytes) (cursor : Cursor) : List Segment :=
  if cursor.rest = [] then
    []
  else
    match (Anchor.next? find anchors text cursor.offset).map (· - cursor.offset) with
    | none => [.copied cursor.rest]
    | some gap =>
        if empty : (cursor.advance gap).rest = [] then
          [.copied cursor.rest]
        else
          have := engine.segmentAt_length (cursor.advance gap) empty
          .copied (cursor.rest.take gap) ::
            (engine.segmentAt (cursor.advance gap)).1 ::
            segmentsFromAnchors find engine anchors text
              ((cursor.advance gap).moveTo (engine.segmentAt (cursor.advance gap)).2)
termination_by cursor.rest.length
decreasing_by
  have remaining : (cursor.advance gap).rest.length ≤ cursor.rest.length := by
    simp [Cursor.advance]
  simp only [Cursor.moveTo]
  omega

/-- How a text is cut, given a search for anchors.  Without rules it is copied
as a whole. -/
def segmentsWith (find : Anchor.Search) (engine : Engine) (text : Bytes) : List Segment :=
  if engine.rules.isEmpty then [.copied text]
  else
    match engine.anchors with
    | none => engine.segmentsFrom (Cursor.start text)
    | some anchors => engine.segmentsFromAnchors find anchors text (Cursor.start text)

/-- How a text is cut. -/
def segments (engine : Engine) (text : Bytes) : List Segment :=
  engine.segmentsWith Anchor.firstEnd? text

/-- The output of a list of segments. -/
def outputOf (segments : List Segment) : Bytes :=
  segments.flatMap (·.output)

/-- The counts of a list of segments. -/
def statsOf (segments : List Segment) : Stats :=
  let rules := segments.filterMap (·.rule?)
  { total := rules.length, perRule := Tally.ofLabels (rules.map (·.label)) }

/-- Applies the rules to a text. -/
def process (engine : Engine) (text : Bytes) : Bytes :=
  outputOf (engine.segments text)

/-- Applies the rules to a text and counts, given a search for anchors. -/
def processStatsWith (find : Anchor.Search) (engine : Engine) (text : Bytes) :
    Bytes × Stats :=
  let segments := engine.segmentsWith find text
  (outputOf segments, statsOf segments)

/-- Applies the rules to a text and counts. -/
def processStats (engine : Engine) (text : Bytes) : Bytes × Stats :=
  engine.processStatsWith Anchor.firstEnd? text

end Engine

/-- Applies rules to a text under the standard symbols. -/
def process (text : Bytes) (rules : List Rule) : Except Symbols.Fault Bytes :=
  (Engine.compile rules {}).map (·.process text)

/-- Applies rules to a text under the given symbols, all of which must be
chosen. -/
def processWithSymbols (text : Bytes) (symbols : Symbols) (rules : List Rule) :
    Except Symbols.Fault Bytes :=
  if symbols.isUnset then .error .emptySigil
  else (Engine.compile rules { symbols }).map (·.process text)

end Stencil
