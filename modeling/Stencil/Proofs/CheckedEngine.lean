import Stencil.Proofs.CheckedMatch
import Stencil.Proofs.DeclarationSeams
import Stencil.Proofs.PrefilterRefinement
import Stencil.Proofs.TemplateSegmentation

/-!
# Checked substitution

Templates and engines with offsets into the template and the text.  The value of a
reference is read from the text of the match.  Where the places without an anchor are
passed over, the text between two places is copied by its offsets.
-/

namespace Stencil.Checked

/-- Expands a template from an offset on, against a match in a text. -/
def expandFrom (sigil template text : Bytes) (found : Match) (offset : Int) : Run Bytes :=
  if offset < template.length then do
    match Bytes.splitAtFirst sigil (← behind template offset) with
    | none => behind template offset
    | some (before, _) =>
        let plain ← cut template offset (offset + before.length)
        let start := offset + before.length + sigil.length
        let stop ← skipWhile Bytes.isIdent template start
        let name ← cut template start stop
        let value ← lookupIn text found name
        goOn template offset stop fun _ => do
          let later ← expandFrom sigil template text found stop
          return plain ++ (value.getD (sigil ++ name) ++ later)
  else
    pure []
termination_by (template.length - offset).toNat
decreasing_by omega

/-- Expands a template against a match in a text. -/
def expand (sigil template text : Bytes) (found : Match) : Run Bytes :=
  if sigil.isEmpty then pure template else expandFrom sigil template text found 0

/-- The text every match of a pattern begins with. -/
def anchorOf (pattern : Pattern) : Run (Option Bytes) :=
  match pattern.tokens with
  | [] => pure none
  | token :: _ => if token.optional then pure none else openingOf pattern.source token

/-- The anchors of all rules, when every rule has one. -/
def anchorsOf : List CompiledRule → Run (Option (List Bytes))
  | [] => pure (some [])
  | compiled :: rules => do
      match ← anchorOf compiled.pattern with
      | none => return none
      | some anchor => return (← anchorsOf rules).map (anchor :: ·)

/-- Compiles rules in order. -/
def compileRules (symbols : Symbols) : List Rule → Run (Except Symbols.Fault (List CompiledRule))
  | [] => pure (.ok [])
  | rule :: rules => do
      match ← compile rule.pattern symbols with
      | .error fault => return .error fault
      | .ok pattern => return (← compileRules symbols rules).map (⟨rule, pattern⟩ :: ·)

/-- The anchors that are used, if any. -/
def anchorsFor (options : Options) (rules : List CompiledRule) : Run (Option (List Bytes)) :=
  if options.disablePrefilter || rules.isEmpty then pure none else anchorsOf rules

/-- Compiles an engine. -/
def compileEngine (rules : List Rule) (options : Options) : Run (Except Symbols.Fault Engine) :=
  let options := options.normalized
  match options.symbols.fault? with
  | some fault => pure (.error fault)
  | none => do
      match ← compileRules options.symbols rules with
      | .error fault => return .error fault
      | .ok compiled =>
          return .ok { rules := compiled, options, anchors := ← anchorsFor options compiled }

/-- Whether an anchor begins at an offset. -/
def anchorAt (anchors : List Bytes) (text : Bytes) (offset : Int) : Run Bool := do
  return Anchor.beginsAt anchors (← behind text offset)

/-- The least offset, from the given one on, at which an anchor begins. -/
def nextAt (find : Anchor.Search) (anchors : List Bytes) (text : Bytes) (offset : Int) :
    Run (Option Int) :=
  if text.length ≤ offset then
    pure none
  else
    match find anchors text offset.toNat with
    | none => pure none
    | some occurrence => do
        let first ← scan (anchorAt anchors text) occurrence.start
          (max offset (occurrence.stop - Anchor.longest anchors))
        return some (min first occurrence.start)

/-- The first rule that matches at an offset. -/
def firstMatch (strict : Bool) (text : Bytes) (offset : Int) :
    List CompiledRule → Run (Option (Rule × Match))
  | [] => pure none
  | compiled :: rules => do
      match ← matchAt compiled.pattern strict text offset with
      | some found => return some (compiled.rule, found)
      | none => firstMatch strict text offset rules

/-- The character at an offset, and the offset behind it. -/
def charAt (text : Bytes) (offset : Int) : Run (Bytes × Int) := do
  let stop := offset + (← widthAt text offset)
  return (← cut text offset stop, stop)

/-- What happens at an offset: a segment, and the offset behind it. -/
def segmentAt (engine : Engine) (text : Bytes) (offset : Int) : Run (Segment × Int) := do
  match ← firstMatch engine.options.strictBlocks text offset engine.rules with
  | none =>
      let (char, stop) ← charAt text offset
      return (.copied char, stop)
  | some (rule, found) =>
      let expansion ← expand engine.options.symbols.sigil rule.replacement text found
      if offset < found.stop then
        return (.replaced rule found expansion, found.stop)
      else
        let (char, stop) ← charAt text offset
        return (.inserted rule found expansion char, stop)

/-- Cuts a text into segments from an offset on, trying every place. -/
def segmentsAt (engine : Engine) (text : Bytes) (offset : Int) : Run (List Segment) :=
  if offset < text.length then do
    let (segment, stop) ← segmentAt engine text offset
    goOn text offset stop fun _ => do
      return segment :: (← segmentsAt engine text stop)
  else
    pure []
termination_by (text.length - offset).toNat
decreasing_by omega

/-- Cuts a text into segments from an offset on, trying the places where an anchor
begins. -/
def segmentsAtAnchors (find : Anchor.Search) (engine : Engine) (anchors : List Bytes)
    (text : Bytes) (offset : Int) : Run (List Segment) :=
  if offset < text.length then do
    match ← nextAt find anchors text offset with
    | none => return [.copied (← behind text offset)]
    | some place =>
        let passed ← cut text offset place
        let (segment, stop) ← segmentAt engine text place
        goOn text offset stop fun _ => do
          return .copied passed :: segment :: (← segmentsAtAnchors find engine anchors text stop)
  else
    pure []
termination_by (text.length - offset).toNat
decreasing_by omega

/-- How a text is cut. -/
def segments (find : Anchor.Search) (engine : Engine) (text : Bytes) : Run (List Segment) :=
  if engine.rules.isEmpty then pure [.copied text]
  else
    match engine.anchors with
    | none => segmentsAt engine text 0
    | some anchors => segmentsAtAnchors find engine anchors text 0

/-- Applies the rules to a text and counts. -/
def processStats (find : Anchor.Search) (engine : Engine) (text : Bytes) :
    Run (Bytes × Stats) := do
  let segments ← segments find engine text
  return (Engine.outputOf segments, Engine.statsOf segments)

/-! ## Templates -/

section Templates

variable {sigil template : Bytes}

theorem splitAtFirst_unmarked (nonempty : sigil ≠ []) {plain : Bytes}
    (unmarked : Template.Unmarked sigil plain []) :
    Bytes.splitAtFirst sigil plain = none := by
  cases split : Bytes.splitAtFirst sigil plain with
  | none => rfl
  | some both =>
      obtain ⟨before, found⟩ := both
      obtain ⟨rfl, rest, rfl⟩ := Bytes.splitAtFirst_eq_some split
      exact absurd unmarked (Template.Unmarked.not_append nonempty)

theorem splitAtFirst_plain {plain rest : Bytes} (begins : sigil <+: rest)
    (unmarked : Template.Unmarked sigil plain rest) :
    Bytes.splitAtFirst sigil (plain ++ rest) = some (plain, rest) := by
  cases split : Bytes.splitAtFirst sigil (plain ++ rest) with
  | none => exact absurd begins (Bytes.splitAtFirst_eq_none split)
  | some both =>
      obtain ⟨before, found⟩ := both
      obtain ⟨whole, occurs⟩ := Bytes.splitAtFirst_eq_some split
      have early := Bytes.splitAtFirst_le split begins
      have late := unmarked.length_le occurs whole
      obtain ⟨rfl, rfl⟩ := List.append_inj whole (Nat.le_antisymm late early)
      rfl

theorem expandFrom_eq (nonempty : sigil ≠ []) {text : Bytes} {found : Match} {start : Int}
    (lies : found.Lies text start) {rest : Bytes} {pieces : List Template.Piece}
    (segments : Template.Segments sigil rest pieces) {place : Nat}
    (inside : place ≤ template.length) (here : template.drop place = rest) :
    expandFrom sigil template text found place =
      pure (pieces.flatMap (·.expand sigil found)) := by
  have same : ∀ plain, Template.Piece.expand sigil found (.text plain) = plain := fun _ => rfl
  induction segments generalizing place with
  | @last plain unmarked =>
      rw [Template.flatMap_withText same, List.flatMap_nil, List.append_nil, expandFrom]
      by_cases more : place < template.length
      · rw [if_pos (by omega), behind_eq inside, pure_bind, here,
          splitAtFirst_unmarked nonempty unmarked]
      · rw [if_neg (by omega), ← here, List.drop_eq_nil_of_le (Nat.le_of_not_lt more)]
  | @reference plain name tail later unmarked ident ends segments ih =>
      have positive := List.length_pos_iff.mpr nonempty
      obtain ⟨plainTaken, marked⟩ := Bytes.drop_eq_append here
      obtain ⟨-, named⟩ := Bytes.drop_eq_append marked.symm
      obtain ⟨nameTaken, behindName⟩ := Bytes.drop_eq_append named.symm
      have first := Bytes.stop_le_of_split inside here
      have second := Bytes.stop_le_of_split first marked.symm
      have third := Bytes.stop_le_of_split second named.symm
      have scanned := skipWhile_eq Bytes.isIdent second
      rw [← named, (Bytes.span_append ident ends).1] at scanned
      have moves : (place : Int) <
          ((place + plain.length + sigil.length + name.length : Nat) : Int) := by
        omega
      have splits := splitAtFirst_plain (List.prefix_append sigil (name ++ tail)) unmarked
      rw [expandFrom, if_pos (by omega), behind_eq inside, pure_bind, here, splits]
      simp only [← Int.natCast_add, cut_eq (Nat.le_add_right _ _) first, ← plainTaken, scanned,
        cut_eq (Nat.le_add_right _ _) third, ← nameTaken, lookupIn_eq lies, pure_bind,
        goOn_eq moves (Int.ofNat_le.mpr third), ih third behindName.symm, Template.flatMap_withText same]
      rfl

/-- Expanding reads nothing outside of the template and of the text of the match. -/
theorem expand_eq {text : Bytes} {found : Match} {start : Int} (lies : found.Lies text start)
    (sigil template : Bytes) :
    expand sigil template text found = pure (Template.expand sigil template found) := by
  unfold expand Template.expand
  split
  · rfl
  · next marked =>
      have nonempty : sigil ≠ [] := by simpa using marked
      exact expandFrom_eq nonempty lies (Template.segments_pieces nonempty template)
        (Nat.zero_le _) List.drop_zero

end Templates

/-! ## Engines -/

/-- Every rule has a pattern that was compiled. -/
def Compiled (rules : List CompiledRule) : Prop :=
  ∀ compiled ∈ rules, ∃ source symbols, Pattern.compile source symbols = .ok compiled.pattern

theorem compiled_of {symbols : Symbols} (valid : symbols.Valid) (rules : List Rule) :
    Compiled (rules.map (CompiledRule.of symbols)) := by
  intro compiled member
  obtain ⟨rule, -, rfl⟩ := List.mem_map.mp member
  exact ⟨rule.pattern, symbols, Pattern.compile_eq_ok_iff.mpr ⟨valid, rfl⟩⟩

theorem compiled_of_compile {rules : List Rule} {options : Options} {engine : Engine}
    (compiled : Engine.compile rules options = .ok engine) : Compiled engine.rules := by
  obtain ⟨valid, rfl⟩ := Engine.compile_eq_ok_iff.mp compiled
  exact compiled_of valid rules

theorem anchorOf_eq {source : Bytes} {symbols : Symbols} {pattern : Pattern}
    (compiled : Pattern.compile source symbols = .ok pattern) :
    anchorOf pattern = pure pattern.anchor? := by
  unfold anchorOf Pattern.anchor?
  cases tokens : pattern.tokens with
  | nil => rfl
  | cons token later =>
      have member : token ∈ pattern.tokens := tokens ▸ List.mem_cons_self
      simp only [openingOf_eq (readable_of_compile compiled member)]
      split
      · rfl
      · rfl

theorem anchorsOf_eq {rules : List CompiledRule} (compiled : Compiled rules) :
    anchorsOf rules = pure (rules.mapM (·.pattern.anchor?)) := by
  induction rules with
  | nil => rfl
  | cons first rules ih =>
      obtain ⟨source, symbols, own⟩ := compiled first List.mem_cons_self
      have later := ih fun other member => compiled other (List.mem_cons_of_mem _ member)
      rw [anchorsOf, anchorOf_eq own, pure_bind, List.mapM_cons]
      cases first.pattern.anchor? with
      | none => rfl
      | some anchor =>
          simp only [later, pure_bind]
          cases rules.mapM (·.pattern.anchor?) <;> rfl

theorem anchorsFor_eq (options : Options) {rules : List CompiledRule} (compiled : Compiled rules) :
    anchorsFor options rules =
      pure (if options.disablePrefilter || rules.isEmpty then none
        else rules.mapM (·.pattern.anchor?)) := by
  rw [anchorsFor, anchorsOf_eq compiled]
  split
  · rfl
  · rfl

theorem compileRules_eq {symbols : Symbols} (valid : symbols.Valid) (rules : List Rule) :
    compileRules symbols rules = pure (.ok (rules.map (CompiledRule.of symbols))) := by
  induction rules with
  | nil => rfl
  | cons rule rules ih =>
      have own : Pattern.compile rule.pattern symbols = .ok (CompiledRule.of symbols rule).pattern :=
        Pattern.compile_eq_ok_iff.mpr ⟨valid, rfl⟩
      rw [compileRules, compile_eq, own, pure_bind, ih]
      rfl

/-- Compiling rules reads nothing outside of their patterns. -/
theorem compileEngine_eq (rules : List Rule) (options : Options) :
    compileEngine rules options = pure (Engine.compile rules options) := by
  cases faulty : options.normalized.symbols.fault? with
  | some fault => simp only [compileEngine, Engine.compile, faulty]
  | none =>
      have valid := Symbols.fault?_eq_none_iff.mp faulty
      have compiled : Engine.compile rules options = .ok _ :=
        Engine.compile_eq_ok_iff.mpr ⟨valid, rfl⟩
      rw [compiled]
      simp only [compileEngine, faulty, compileRules_eq valid, pure_bind,
        anchorsFor_eq _ (compiled_of valid rules), List.isEmpty_map]
      rfl

/-! ## Scanning -/

section Scanning

variable {engine : Engine} {text : Bytes} {place : Nat}

theorem anchorAt_eq (anchors : List Bytes) (inside : place ≤ text.length) :
    anchorAt anchors text place = pure (Anchor.beginsAt anchors (text.drop place)) := by
  rw [anchorAt, behind_eq inside, pure_bind]

/-- The short look back finds the first place before a limit at which an anchor
begins. -/
theorem scan_firstStart (anchors : List Bytes) (place : Nat) {limit : Nat}
    (bound : limit ≤ text.length) :
    (scan (anchorAt anchors text) limit place >>= fun first => pure (min first limit)) =
      (pure (Anchor.firstStart anchors text place limit : Int) : Run Int) := by
  fun_induction Anchor.firstStart anchors text place limit with
  | case1 place below begins =>
      rw [scan, if_pos (by omega), anchorAt_eq anchors (by omega), pure_bind, if_pos begins,
        pure_bind, Int.min_eq_left (by omega)]
  | case2 place below silent ih =>
      rw [scan, if_pos (by omega), anchorAt_eq anchors (by omega), pure_bind, if_neg silent]
      exact ih
  | case3 place notBelow =>
      rw [scan, if_neg (by omega), pure_bind, Int.min_eq_right (by omega)]

theorem nextAt_eq {find : Anchor.Search} (lawful : find.Lawful) {anchors : List Bytes}
    (someAnchor : anchors ≠ []) (nonempty : [] ∉ anchors) (inside : place ≤ text.length) :
    nextAt find anchors text place =
      pure ((Anchor.next? find anchors text place).map fun goal : Nat => (goal : Int)) := by
  have answers := lawful anchors text place someAnchor nonempty inside
  unfold nextAt Anchor.next?
  simp only [Int.ofNat_le, Int.toNat_natCast]
  split
  · rfl
  · cases found : find anchors text place with
    | none => rfl
    | some occurrence =>
        rw [found] at answers
        obtain ⟨ordered, bound⟩ := answers.1.stop_le nonempty
        have first : max (place : Int) (occurrence.stop - Anchor.longest anchors) =
            (max place (occurrence.stop - Anchor.longest anchors) : Nat) := by
          omega
        have scanned := congrArg (· >>= fun goal => pure (some goal))
          (scan_firstStart anchors (max place (occurrence.stop - Anchor.longest anchors))
            (Nat.le_trans (Nat.le_of_lt ordered) bound))
        simp only [bind_assoc, pure_bind] at scanned
        simp only [first, scanned, Option.map_some]

theorem firstMatch_eq (strict : Bool) (inside : place ≤ text.length) (index : Nat)
    {rules : List CompiledRule} (compiled : Compiled rules) :
    firstMatch strict text place rules =
      pure ((Engine.firstMatch? strict (Cursor.inside text place) index rules).map (·.2)) := by
  induction rules generalizing index with
  | nil => rfl
  | cons first rules ih =>
      obtain ⟨source, symbols, own⟩ := compiled first List.mem_cons_self
      rw [firstMatch, matchAt_inside own strict inside, pure_bind, Engine.firstMatch?]
      cases first.pattern.matchFrom? strict (Cursor.inside text place) with
      | some found => rfl
      | none => exact ih _ fun other member => compiled other (List.mem_cons_of_mem _ member)

theorem firstMatch?_lies {strict : Bool} (inside : place ≤ text.length) {index chosen : Nat}
    {rules : List CompiledRule} (compiled : Compiled rules) {rule : Rule} {found : Match}
    (won : Engine.firstMatch? strict (Cursor.inside text place) index rules =
      some (chosen, rule, found)) :
    found.Lies text place ∧ place ≤ found.stop ∧ found.stop ≤ text.length ∧
      found.rest = text.drop found.stop := by
  obtain ⟨position, winner, -, listed, -, matched, -⟩ := Engine.firstMatch?_eq_some won
  obtain ⟨source, symbols, own⟩ := compiled winner (List.mem_of_getElem? listed)
  have wellFormed := Pattern.wellFormed_of_compile own
  obtain ⟨lies, -⟩ := Pattern.lies_of_matchFrom? wellFormed inside matched
  rw [← Pattern.matchAt?_ofNat inside] at matched
  exact ⟨lies, (Pattern.matchAt?_located wellFormed inside matched).2⟩

theorem charAt_eq (more : place < text.length) :
    charAt text place =
      pure ((text.drop place).take (Utf8.width (text.drop place)),
        ((place + Utf8.width (text.drop place) : Nat) : Int)) := by
  simp only [charAt, widthAt_eq more, pure_bind, ← Int.natCast_add,
    cut_eq (Nat.le_add_right _ _) (width_le more), Bytes.between, Nat.add_sub_cancel_left]

/-- What happens at a place reads nothing outside of the text. -/
theorem segmentAt_eq (compiled : Compiled engine.rules) (more : place < text.length) :
    ∃ stop : Nat,
      segmentAt engine text place =
          pure ((engine.segmentAt (Cursor.inside text place)).1, (stop : Int)) ∧
        (Cursor.inside text place).moveTo (engine.segmentAt (Cursor.inside text place)).2 =
          Cursor.inside text stop ∧ place < stop ∧ stop ≤ text.length := by
  have inside := Nat.le_of_lt more
  have wide := Utf8.width_pos (text.drop place)
  have fits := width_le more
  have copied : (Cursor.inside text place).moveTo
      ((text.drop place).drop (Utf8.width (text.drop place))) =
        Cursor.inside text (place + Utf8.width (text.drop place)) := by
    rw [List.drop_drop]
    exact Cursor.inside_moveTo_drop (Nat.le_add_right _ _) fits
  rw [segmentAt, firstMatch_eq _ inside 0 compiled, pure_bind, Engine.segmentAt]
  cases won : Engine.firstMatch? engine.options.strictBlocks (Cursor.inside text place) 0
      engine.rules with
  | none =>
      simp only [Option.map_none, charAt_eq more, pure_bind]
      exact ⟨_, rfl, copied, by omega, fits⟩
  | some winner =>
      obtain ⟨chosen, rule, found⟩ := winner
      obtain ⟨lies, ordered, within, rest⟩ := firstMatch?_lies inside compiled won
      simp only [Option.map_some, expand_eq lies, pure_bind, Int.ofNat_lt, charAt_eq more]
      have consumed : found.rest.length < (Cursor.inside text place).rest.length ↔
          place < found.stop :=
        Match.consumed_iff within rest place
      by_cases longer : place < found.stop
      · rw [if_pos longer, if_pos (consumed.mpr longer), rest]
        exact ⟨_, rfl, Cursor.inside_moveTo_drop ordered within, longer, within⟩
      · rw [if_neg longer, if_neg (mt consumed.mp longer)]
        exact ⟨_, rfl, copied, by omega, fits⟩

theorem segmentsAt_eq (compiled : Compiled engine.rules) (inside : place ≤ text.length) :
    segmentsAt engine text place = pure (engine.segmentsFrom (Cursor.inside text place)) := by
  induction remaining : text.length - place using Nat.strongRecOn generalizing place with
  | _ remaining ih =>
      rcases Nat.eq_or_lt_of_le inside with rfl | more
      · rw [segmentsAt, if_neg (by omega), Engine.segmentsFrom_end]
      · obtain ⟨stop, read, moved, later, within⟩ := segmentAt_eq compiled more
        rw [segmentsAt, if_pos (by omega), read]
        simp only [pure_bind, goOn_eq (Int.ofNat_lt.mpr later) (Int.ofNat_le.mpr within),
          ih _ (by omega) within rfl]
        rw [Engine.segmentsFrom_inside more moved]

theorem segmentsAtAnchors_eq {find : Anchor.Search} (lawful : find.Lawful)
    {anchors : List Bytes} (someAnchor : anchors ≠ []) (nonempty : [] ∉ anchors)
    (compiled : Compiled engine.rules) (inside : place ≤ text.length) :
    segmentsAtAnchors find engine anchors text place =
      pure (engine.segmentsFromAnchors Anchor.firstEnd? anchors text
        (Cursor.inside text place)) := by
  induction remaining : text.length - place using Nat.strongRecOn generalizing place with
  | _ remaining ih =>
      rcases Nat.eq_or_lt_of_le inside with rfl | more
      · rw [segmentsAtAnchors, if_neg (by omega), Engine.segmentsFromAnchors_end]
      · rw [segmentsAtAnchors, if_pos (by omega), nextAt_eq lawful someAnchor nonempty inside,
          pure_bind, Anchor.next?_lawful lawful someAnchor nonempty]
        cases next : Anchor.next? Anchor.firstEnd? anchors text place with
        | none =>
            rw [Engine.segmentsFromAnchors_none more next]
            simp only [Option.map_none, behind_eq inside, pure_bind]
        | some goal =>
            obtain ⟨ordered, goalInside, -⟩ :=
              Anchor.next?_eq_some Anchor.firstEnd?_lawful someAnchor nonempty next
            obtain ⟨stop, read, moved, later, within⟩ := segmentAt_eq compiled goalInside
            rw [Engine.segmentsFromAnchors_some ordered goalInside next moved]
            have moves := Nat.lt_of_le_of_lt ordered later
            simp only [Option.map_some, cut_eq ordered (Nat.le_of_lt goalInside), read, pure_bind,
              goOn_eq (Int.ofNat_lt.mpr moves) (Int.ofNat_le.mpr within),
              ih _ (by omega) within rfl]

end Scanning

/-- Applying the rules of an engine reads nothing outside of the text. -/
theorem processStats_eq {find : Anchor.Search} (lawful : find.Lawful) {rules : List Rule}
    {options : Options} {engine : Engine} (compiled : Engine.compile rules options = .ok engine)
    (text : Bytes) :
    processStats find engine text = pure (engine.processStats text) := by
  have patterns := compiled_of_compile compiled
  have cuts : segments find engine text = pure (engine.segments text) := by
    unfold segments Engine.segments Engine.segmentsWith
    split
    · rfl
    · cases filter : engine.anchors with
      | none => exact segmentsAt_eq patterns (Nat.zero_le _)
      | some anchors =>
          obtain ⟨-, someAnchor, nonempty⟩ := Engine.anchored_of_compile compiled filter
          exact segmentsAtAnchors_eq lawful someAnchor nonempty patterns (Nat.zero_le _)
  rw [processStats, cuts, pure_bind]
  rfl

end Stencil.Checked
