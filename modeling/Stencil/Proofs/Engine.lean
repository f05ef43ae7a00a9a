import Stencil.Engine.Basic
import Stencil.Proofs.MatchExactness
import Stencil.Proofs.Utf8

/-!
# One step of a scan

What compiling rules yields, which rule wins at a place, and what the scan makes
of that place: a copied character, a replaced match, or an expansion inserted in
front of a copied character.
-/

namespace Stencil

/-- A rule with the pattern that its text stands for. -/
def CompiledRule.of (symbols : Symbols) (rule : Rule) : CompiledRule :=
  ⟨rule, ⟨rule.pattern, symbols, Token.link (Pattern.tokensFrom symbols 0 rule.pattern)⟩⟩

/-- The match that a segment replaces or follows. -/
def Segment.match? : Segment → Option Match
  | .copied _ => none
  | .replaced _ found _ | .inserted _ found _ _ => some found

namespace Engine

theorem mapM_compile {symbols : Symbols} (valid : symbols.Valid) (rules : List Rule) :
    (rules.mapM fun rule => do
      return (⟨rule, ← Pattern.compile rule.pattern symbols⟩ : CompiledRule)) =
      Except.ok (rules.map (CompiledRule.of symbols)) := by
  induction rules with
  | nil => rfl
  | cons rule rules ih =>
      rw [List.mapM_cons, ih, Pattern.compile_eq_ok_iff.mpr ⟨valid, rfl⟩]
      rfl

theorem compile_eq_ok_iff {rules : List Rule} {options : Options} {engine : Engine} :
    compile rules options = .ok engine ↔
      options.normalized.symbols.Valid ∧
        engine =
          { rules := rules.map (CompiledRule.of options.normalized.symbols)
            options := options.normalized
            anchors :=
              if options.disablePrefilter || rules.isEmpty then none
              else (rules.map (CompiledRule.of options.normalized.symbols)).mapM
                (·.pattern.anchor?) } := by
  unfold compile
  dsimp only
  cases faulty : options.normalized.symbols.fault? with
  | some fault =>
      constructor
      · intro impossible
        cases impossible
      · rintro ⟨valid, _⟩
        rw [Symbols.fault?_eq_none_iff.mpr valid] at faulty
        cases faulty
  | none =>
      have valid := Symbols.fault?_eq_none_iff.mp faulty
      dsimp only
      rw [mapM_compile valid]
      have disabled : options.normalized.disablePrefilter = options.disablePrefilter := rfl
      simp only [bind, Except.bind, pure, Except.pure, Except.ok.injEq, valid, true_and,
        List.isEmpty_map, disabled]
      exact eq_comm

theorem exists_compile {options : Options} (valid : options.normalized.symbols.Valid)
    (rules : List Rule) : ∃ engine, compile rules options = .ok engine :=
  ⟨_, compile_eq_ok_iff.mpr ⟨valid, rfl⟩⟩

/-- An engine with anchors has rules, and the anchors are theirs. -/
theorem mapM_of_anchors {rules : List Rule} {options : Options} {engine : Engine}
    {anchors : List Bytes} (compiled : compile rules options = .ok engine)
    (filter : engine.anchors = some anchors) :
    engine.rules ≠ [] ∧ engine.rules.mapM (·.pattern.anchor?) = some anchors := by
  obtain ⟨_, rfl⟩ := compile_eq_ok_iff.mp compiled
  dsimp only at filter ⊢
  split at filter
  · cases filter
  next enabled =>
    refine ⟨?_, filter⟩
    intro ruleless
    simp [List.map_eq_nil_iff.mp ruleless] at enabled

/-- The patterns of an engine have well-formed tokens. -/
def WellFormed (engine : Engine) : Prop :=
  ∀ compiled ∈ engine.rules, ∀ token ∈ compiled.pattern.tokens, token.WellFormed

theorem wellFormed_of_compile {rules : List Rule} {options : Options} {engine : Engine}
    (compiled : compile rules options = .ok engine) : engine.WellFormed := by
  obtain ⟨valid, rfl⟩ := compile_eq_ok_iff.mp compiled
  intro member listed
  obtain ⟨rule, _, rfl⟩ := List.mem_map.mp listed
  exact Pattern.wellFormed_of_compile (Pattern.compile_eq_ok_iff.mpr ⟨valid, rfl⟩)

end Engine

theorem Pattern.matchAt?_ofNat {pattern : Pattern} {strict : Bool} {text : Bytes} {place : Nat}
    (inside : place ≤ text.length) :
    pattern.matchAt? strict text place = pattern.matchFrom? strict (Cursor.inside text place) :=
  if_pos inside

theorem Pattern.matchOf_stop {strict : Bool} {text : Bytes} {earlier : List Share}
    {tokens : List Token} {start stop : Nat} {shares : List Share}
    (reading : Reading strict text earlier tokens start shares stop) :
    (matchOf text start shares stop).stop = stop := by
  have ordered := reading.consecutive.le
  simp only [Match.stop, Slice.stop, Slice.length, matchOf]
  rw [Bytes.length_between reading.inside]
  omega

/-- A match lies in the text: it begins where it was looked for, and its rest is
what follows it. -/
theorem Pattern.matchAt?_located {pattern : Pattern}
    (wellFormed : ∀ token ∈ pattern.tokens, token.WellFormed) {strict : Bool} {text : Bytes}
    {place : Nat} (inside : place ≤ text.length) {found : Match}
    (matched : pattern.matchAt? strict text place = some found) :
    found.matched = ⟨place, text.between place found.stop⟩ ∧ place ≤ found.stop ∧
      found.stop ≤ text.length ∧ found.rest = text.drop found.stop := by
  rw [matchAt?_ofNat inside] at matched
  obtain ⟨shares, stop, reading, rfl⟩ := (matchFrom?_eq_some_iff wellFormed inside).mp matched
  rw [matchOf_stop reading]
  exact ⟨rfl, reading.consecutive.le, reading.inside, rfl⟩

/-- A match leaves less text exactly when it ends later than it begins. -/
theorem Match.consumed_iff {found : Match} {text : Bytes} (within : found.stop ≤ text.length)
    (rest : found.rest = text.drop found.stop) (place : Nat) :
    found.rest.length < (text.drop place).length ↔ place < found.stop := by
  rw [rest, List.length_drop, List.length_drop]
  omega

/-- A character ends before any place that does not lie inside it. -/
theorem Utf8.First.stop_le {char text : Bytes} {place goal : Nat}
    (first : First char (text.drop place)) (before : place < goal) (inside : goal ≤ text.length)
    (aligned : Aligned (text.drop goal)) : place + char.length ≤ goal := by
  have placeInside := Nat.lt_of_lt_of_le before inside
  have taken := (first_iff (Bytes.drop_ne_nil placeInside)).mp first
  rcases Nat.eq_or_lt_of_le inside with rfl | goalInside
  · have short := first.1.length_le
    rw [List.length_drop] at short
    omega
  · have narrow : width (text.drop place) ≤ goal - place := by
      apply width_le_of_aligned (by omega)
      · rw [List.length_drop]
        omega
      · rw [List.drop_drop, Nat.add_sub_of_le (Nat.le_of_lt before)]
        exact aligned
    rw [taken, List.length_take]
    omega

namespace Engine

/-- No rule matches at a place. -/
def Silent (engine : Engine) (text : Bytes) (place : Nat) : Prop :=
  ∀ compiled ∈ engine.rules,
    compiled.pattern.matchAt? engine.options.strictBlocks text place = none

/-- The rule at an index is the first one that matches at a place. -/
structure Wins (engine : Engine) (text : Bytes) (place index : Nat) (compiled : CompiledRule)
    (found : Match) : Prop where
  listed : engine.rules[index]? = some compiled
  matched : compiled.pattern.matchAt? engine.options.strictBlocks text place = some found
  first : ∀ earlier other, earlier < index → engine.rules[earlier]? = some other →
    other.pattern.matchAt? engine.options.strictBlocks text place = none

theorem firstMatch?_eq_none_iff {strict : Bool} {cursor : Cursor} {index : Nat}
    {rules : List CompiledRule} :
    firstMatch? strict cursor index rules = none ↔
      ∀ compiled ∈ rules, compiled.pattern.matchFrom? strict cursor = none := by
  induction rules generalizing index with
  | nil => simp [firstMatch?]
  | cons compiled rules ih =>
      rw [firstMatch?]
      cases tried : compiled.pattern.matchFrom? strict cursor with
      | some found => simp [tried]
      | none => simp [tried, ih]

theorem firstMatch?_eq_some {strict : Bool} {cursor : Cursor} {index chosen : Nat}
    {rules : List CompiledRule} {rule : Rule} {found : Match}
    (won : firstMatch? strict cursor index rules = some (chosen, rule, found)) :
    ∃ position compiled, chosen = index + position ∧ rules[position]? = some compiled ∧
      compiled.rule = rule ∧ compiled.pattern.matchFrom? strict cursor = some found ∧
      ∀ earlier other, earlier < position → rules[earlier]? = some other →
        other.pattern.matchFrom? strict cursor = none := by
  induction rules generalizing index with
  | nil => cases won
  | cons compiled rules ih =>
      rw [firstMatch?] at won
      cases tried : compiled.pattern.matchFrom? strict cursor with
      | some first =>
          rw [tried] at won
          cases won
          exact ⟨0, compiled, rfl, rfl, rfl, tried, by omega⟩
      | none =>
          rw [tried] at won
          obtain ⟨position, winner, rfl, listed, named, matched, first⟩ := ih won
          refine ⟨position + 1, winner, by omega, listed, named, matched, ?_⟩
          intro earlier other before listedOther
          cases earlier with
          | zero =>
              cases listedOther
              exact tried
          | succ earlier => exact first earlier other (by omega) listedOther

/-- The scan makes a segment of what it finds at a place, and goes on behind it. -/
inductive Cuts (engine : Engine) (text : Bytes) : Nat → Segment → Nat → Prop where
  | copied {place : Nat} {char : Bytes} :
      place < text.length →
      engine.Silent text place →
      Utf8.First char (text.drop place) →
      Cuts engine text place (.copied char) (place + char.length)
  | replaced {place index : Nat} {compiled : CompiledRule} {found : Match} :
      place < text.length →
      engine.Wins text place index compiled found →
      place < found.stop →
      Cuts engine text place
        (.replaced compiled.rule found
          (Template.expand engine.options.symbols.sigil compiled.rule.replacement found))
        found.stop
  | inserted {place index : Nat} {compiled : CompiledRule} {found : Match} {char : Bytes} :
      place < text.length →
      engine.Wins text place index compiled found →
      found.stop = place →
      Utf8.First char (text.drop place) →
      Cuts engine text place
        (.inserted compiled.rule found
          (Template.expand engine.options.symbols.sigil compiled.rule.replacement found) char)
        (place + char.length)

/-- The segments are cut from the text one after the other, from a place to its
end. -/
inductive Scans (engine : Engine) (text : Bytes) : Nat → List Segment → Prop where
  | done : Scans engine text text.length []
  | cut {place behind : Nat} {segment : Segment} {segments : List Segment} :
      engine.Cuts text place segment behind →
      Scans engine text behind segments →
      Scans engine text place (segment :: segments)

section Scan

variable {engine : Engine} {text : Bytes}

theorem silent_iff {place : Nat} (inside : place ≤ text.length) :
    engine.Silent text place ↔
      firstMatch? engine.options.strictBlocks (Cursor.inside text place) 0 engine.rules =
        none := by
  rw [firstMatch?_eq_none_iff]
  simp only [Silent, Pattern.matchAt?_ofNat inside]

theorem exists_wins {place chosen : Nat} (inside : place ≤ text.length) {rule : Rule}
    {found : Match}
    (won : firstMatch? engine.options.strictBlocks (Cursor.inside text place) 0 engine.rules =
      some (chosen, rule, found)) :
    ∃ compiled, compiled.rule = rule ∧ engine.Wins text place chosen compiled found := by
  obtain ⟨position, compiled, rfl, listed, named, matched, first⟩ := firstMatch?_eq_some won
  rw [Nat.zero_add]
  refine ⟨compiled, named, listed, ?_, ?_⟩
  · rw [Pattern.matchAt?_ofNat inside]
    exact matched
  · intro earlier other before listedOther
    rw [Pattern.matchAt?_ofNat inside]
    exact first earlier other before listedOther

theorem Silent.not_wins {place index : Nat} {compiled : CompiledRule} {found : Match}
    (silent : engine.Silent text place) : ¬ engine.Wins text place index compiled found := by
  intro wins
  have none := silent compiled (List.mem_of_getElem? wins.listed)
  rw [wins.matched] at none
  cases none

theorem Wins.unique {place first second : Nat} {left right : CompiledRule} {found other : Match}
    (wins : engine.Wins text place first left found)
    (again : engine.Wins text place second right other) : left = right ∧ found = other := by
  have same : first = second := by
    rcases Nat.lt_trichotomy first second with before | same | behind
    · have none := again.first first left before wins.listed
      rw [wins.matched] at none
      cases none
    · exact same
    · have none := wins.first second right behind again.listed
      rw [again.matched] at none
      cases none
  subst same
  obtain rfl := Option.some.inj (wins.listed.symm.trans again.listed)
  exact ⟨rfl, Option.some.inj (wins.matched.symm.trans again.matched)⟩

theorem Wins.located {place index : Nat} {compiled : CompiledRule} {found : Match}
    (wellFormed : engine.WellFormed) (inside : place ≤ text.length)
    (wins : engine.Wins text place index compiled found) :
    found.matched = ⟨place, text.between place found.stop⟩ ∧ place ≤ found.stop ∧
      found.stop ≤ text.length ∧ found.rest = text.drop found.stop :=
  Pattern.matchAt?_located (wellFormed compiled (List.mem_of_getElem? wins.listed)) inside
    wins.matched

theorem Wins.consumed_iff {place index : Nat} {compiled : CompiledRule} {found : Match}
    (wellFormed : engine.WellFormed) (inside : place ≤ text.length)
    (wins : engine.Wins text place index compiled found) :
    found.rest.length < (text.drop place).length ↔ place < found.stop := by
  obtain ⟨_, _, stopInside, rest⟩ := wins.located wellFormed inside
  exact Match.consumed_iff stopInside rest place

theorem Wins.moveTo_eq {place index : Nat} {compiled : CompiledRule} {found : Match}
    (wellFormed : engine.WellFormed) (inside : place ≤ text.length)
    (wins : engine.Wins text place index compiled found) :
    (Cursor.inside text place).moveTo found.rest = Cursor.inside text found.stop := by
  obtain ⟨_, ordered, stopInside, rest⟩ := wins.located wellFormed inside
  have split : text.drop place = _ := (Bytes.between_append_drop ordered).symm
  rw [rest, Cursor.inside_moveTo split, Bytes.length_between stopInside,
    Nat.add_sub_of_le ordered]

/-- The first character of what follows a place, as the scan copies it. -/
theorem exists_first {place : Nat} (inside : place < text.length) :
    ∃ char, Utf8.First char (text.drop place) ∧
      (text.drop place).take (Utf8.width (text.drop place)) = char ∧
      (Cursor.inside text place).moveTo
          ((text.drop place).drop (Utf8.width (text.drop place))) =
        Cursor.inside text (place + char.length) := by
  refine ⟨_, (Utf8.first_iff (Bytes.drop_ne_nil inside)).mpr rfl, rfl, ?_⟩
  exact Cursor.inside_moveTo (List.take_append_drop _ _).symm

/-- At every place inside the text the scan cuts a segment. -/
theorem segmentAt_cuts (wellFormed : engine.WellFormed) {place : Nat}
    (inside : place < text.length) :
    ∃ behind,
      engine.Cuts text place (engine.segmentAt (Cursor.inside text place)).1 behind ∧
        (Cursor.inside text place).moveTo (engine.segmentAt (Cursor.inside text place)).2 =
          Cursor.inside text behind := by
  have bound := Nat.le_of_lt inside
  obtain ⟨char, first, taken, moved⟩ := exists_first inside
  simp only [segmentAt, Cursor.inside_rest, taken]
  split
  · next silent =>
      exact ⟨_, .copied inside ((silent_iff bound).mpr silent) first, moved⟩
  · next chosen rule found won =>
      obtain ⟨compiled, rfl, wins⟩ := exists_wins bound won
      have consumed := wins.consumed_iff wellFormed bound
      split
      · next shorter =>
          exact ⟨_, .replaced inside wins (consumed.mp shorter), wins.moveTo_eq wellFormed bound⟩
      · next same =>
          have nothing : found.stop = place := by
            have ordered := (wins.located wellFormed bound).2.1
            have := mt consumed.mpr same
            omega
          exact ⟨_, .inserted inside wins nothing first, moved⟩

theorem Cuts.inside {place behind : Nat} {segment : Segment}
    (cuts : engine.Cuts text place segment behind) : place < text.length := by
  cases cuts <;> assumption

/-- A segment covers the text from the place where it is cut to the place where
the scan goes on, and it is not empty. -/
theorem Cuts.source (wellFormed : engine.WellFormed) {place behind : Nat} {segment : Segment}
    (cuts : engine.Cuts text place segment behind) :
    place < behind ∧ behind ≤ text.length ∧ segment.source = text.between place behind := by
  -- a character has at least one byte, well-formed or not
  have ofFirst : ∀ {place : Nat} {char : Bytes}, place < text.length →
      Utf8.First char (text.drop place) →
      place < place + char.length ∧ place + char.length ≤ text.length ∧
        char = text.between place (place + char.length) := by
    rintro place char inside ⟨⟨rest, split⟩, encoded⟩
    have positive : 0 < char.length := by
      rcases encoded with ⟨scalar, rfl⟩ | ⟨single, _⟩
      · obtain ⟨lead, tail, shape, _⟩ := Utf8.encode_shape scalar
        rw [shape]
        exact Nat.succ_pos _
      · omega
    exact ⟨by omega, Bytes.stop_le_of_split (Nat.le_of_lt inside) split.symm,
      (Bytes.drop_eq_append split.symm).1⟩
  cases cuts with
  | copied inside silent first => exact ofFirst inside first
  | replaced inside wins consumed =>
      obtain ⟨matched, _, stopInside, _⟩ := wins.located wellFormed (Nat.le_of_lt inside)
      exact ⟨consumed, stopInside, congrArg Slice.text matched⟩
  | inserted inside wins nothing first => exact ofFirst inside first

/-- What the scan does at a place is determined. -/
theorem Cuts.unique {place behind other : Nat} {segment second : Segment}
    (cuts : engine.Cuts text place segment behind)
    (again : engine.Cuts text place second other) : segment = second ∧ behind = other := by
  have sameChar : ∀ {left right : Bytes}, Utf8.First left (text.drop place) →
      Utf8.First right (text.drop place) → left = right := by
    intro left right isLeft isRight
    have more := Bytes.drop_ne_nil cuts.inside
    rw [(Utf8.first_iff more).mp isLeft, (Utf8.first_iff more).mp isRight]
  cases cuts with
  | copied _ silent first =>
      cases again with
      | copied _ _ first' =>
          obtain rfl := sameChar first first'
          exact ⟨rfl, rfl⟩
      | replaced _ wins _ => exact (silent.not_wins wins).elim
      | inserted _ wins _ _ => exact (silent.not_wins wins).elim
  | replaced _ wins consumed =>
      cases again with
      | copied _ silent _ => exact (silent.not_wins wins).elim
      | replaced _ wins' _ =>
          obtain ⟨rfl, rfl⟩ := wins.unique wins'
          exact ⟨rfl, rfl⟩
      | inserted _ wins' nothing _ =>
          obtain ⟨rfl, rfl⟩ := wins.unique wins'
          omega
  | inserted _ wins nothing first =>
      cases again with
      | copied _ silent _ => exact (silent.not_wins wins).elim
      | replaced _ wins' consumed =>
          obtain ⟨rfl, rfl⟩ := wins.unique wins'
          omega
      | inserted _ wins' _ first' =>
          obtain ⟨rfl, rfl⟩ := wins.unique wins'
          obtain rfl := sameChar first first'
          exact ⟨rfl, rfl⟩

theorem Scans.unique {place : Nat} {segments others : List Segment}
    (scans : engine.Scans text place segments) (again : engine.Scans text place others) :
    segments = others := by
  induction scans generalizing others with
  | done =>
      cases again with
      | done => rfl
      | cut cuts _ => exact (Nat.lt_irrefl _ cuts.inside).elim
  | cut cuts _ ih =>
      cases again with
      | done => exact (Nat.lt_irrefl _ cuts.inside).elim
      | cut cuts' rest =>
          obtain ⟨rfl, rfl⟩ := cuts.unique cuts'
          rw [ih rest]

theorem segmentsFrom_end : engine.segmentsFrom (Cursor.inside text text.length) = [] := by
  rw [segmentsFrom]
  simp

theorem segmentsFrom_inside {place behind : Nat} (inside : place < text.length)
    (moved : (Cursor.inside text place).moveTo
      (engine.segmentAt (Cursor.inside text place)).2 = Cursor.inside text behind) :
    engine.segmentsFrom (Cursor.inside text place) =
      (engine.segmentAt (Cursor.inside text place)).1 ::
        engine.segmentsFrom (Cursor.inside text behind) := by
  have more : (Cursor.inside text place).rest ≠ [] := Bytes.drop_ne_nil inside
  rw [segmentsFrom, dif_neg more, moved]

/-- The segments of a text from a place on are those of the scan. -/
theorem scans_segmentsFrom (wellFormed : engine.WellFormed) {place : Nat}
    (inside : place ≤ text.length) :
    engine.Scans text place (engine.segmentsFrom (Cursor.inside text place)) := by
  -- every segment is nonempty, so less and less of the text remains
  generalize remaining : text.length - place = n
  induction n using Nat.strongRecOn generalizing place with
  | ind n ih =>
      rcases Nat.eq_or_lt_of_le inside with rfl | more
      · rw [segmentsFrom_end]
        exact .done
      · obtain ⟨behind, cuts, moved⟩ := segmentAt_cuts wellFormed more
        obtain ⟨later, bound, _⟩ := cuts.source wellFormed
        rw [segmentsFrom_inside more moved]
        exact .cut cuts (ih (text.length - behind) (by omega) bound rfl)

/-- Where nothing matches, the scan copies characters up to any place that does
not lie inside one of them. -/
theorem segmentsFrom_silent (wellFormed : engine.WellFormed) {place goal : Nat}
    (ordered : place ≤ goal) (inside : goal ≤ text.length)
    (silent : ∀ between, place ≤ between → between < goal → engine.Silent text between)
    (aligned : Utf8.Aligned (text.drop goal)) :
    ∃ pieces : List Bytes, pieces.flatten = text.between place goal ∧
      engine.segmentsFrom (Cursor.inside text place) =
        pieces.map .copied ++ engine.segmentsFrom (Cursor.inside text goal) := by
  -- by induction on the distance: a character ends at the goal or before it
  generalize distance : goal - place = n
  induction n using Nat.strongRecOn generalizing place with
  | ind n ih =>
      rcases Nat.eq_or_lt_of_le ordered with rfl | before
      · exact ⟨[], by simp, rfl⟩
      · have placeInside := Nat.lt_of_lt_of_le before inside
        obtain ⟨behind, cuts, moved⟩ := segmentAt_cuts wellFormed placeInside
        obtain ⟨later, bound, source⟩ := cuts.source wellFormed
        rw [segmentsFrom_inside placeInside moved]
        generalize (engine.segmentAt (Cursor.inside text place)).1 = segment at cuts source ⊢
        have quiet := silent place (Nat.le_refl _) before
        cases cuts with
        | replaced _ wins _ => exact (quiet.not_wins wins).elim
        | inserted _ wins _ _ => exact (quiet.not_wins wins).elim
        | @copied char _ _ first =>
            have short := first.stop_le before inside aligned
            obtain ⟨pieces, joined, scanned⟩ := ih (goal - (place + char.length)) (by omega)
              short (fun between atLeast => silent between (by omega)) rfl
            refine ⟨char :: pieces, ?_, ?_⟩
            · have whole : text.between place (place + char.length) ++ _ = _ :=
                Bytes.between_append_between (Nat.le_add_right _ _) short
              rw [List.flatten_cons, joined, ← whole, ← source]
              rfl
            · rw [scanned]
              rfl

end Scan

/-- Copied pieces are joined; all other segments are the same. -/
inductive Joins : List Segment → List Segment → Prop where
  | nil : Joins [] []
  | join (pieces : List Bytes) {joined segments : List Segment} :
      Joins joined segments →
      Joins (.copied pieces.flatten :: joined) (pieces.map .copied ++ segments)
  | same (segment : Segment) {joined segments : List Segment} :
      Joins joined segments → Joins (segment :: joined) (segment :: segments)

theorem Joins.refl (segments : List Segment) : Joins segments segments := by
  induction segments with
  | nil => exact .nil
  | cons segment segments ih => exact .same segment ih

theorem Joins.outputOf_eq {joined segments : List Segment} (joins : Joins joined segments) :
    outputOf joined = outputOf segments := by
  induction joins with
  | nil => rfl
  | join pieces _ ih =>
      have copied : outputOf (pieces.map .copied) = pieces.flatten := by
        rw [outputOf, List.flatMap_map]
        exact List.flatMap_id'
      unfold outputOf at ih copied ⊢
      rw [List.flatMap_cons, List.flatMap_append, copied, ih]
      rfl
  | same segment _ ih =>
      unfold outputOf at ih ⊢
      rw [List.flatMap_cons, List.flatMap_cons, ih]

/-- What is read off the segments that are not copied is the same. -/
theorem Joins.filterMap_eq {α : Type} {read : Segment → Option α}
    (nothing : ∀ text, read (.copied text) = none) {joined segments : List Segment}
    (joins : Joins joined segments) : joined.filterMap read = segments.filterMap read := by
  induction joins with
  | nil => rfl
  | join pieces _ ih =>
      have silent : (pieces.map Segment.copied).filterMap read = [] := by
        rw [List.filterMap_map]
        exact List.filterMap_eq_nil_iff.mpr fun text _ => nothing text
      rw [List.filterMap_append, silent, List.nil_append, ← ih,
        List.filterMap_cons_none (nothing _)]
  | same segment _ ih =>
      rw [List.filterMap_cons, List.filterMap_cons, ih]

theorem Joins.statsOf_eq {joined segments : List Segment} (joins : Joins joined segments) :
    statsOf joined = statsOf segments := by
  unfold statsOf
  rw [joins.filterMap_eq fun _ => rfl]

/-- Without anchors the segments of a text are those of the scan of every place,
but for a text that is copied as a whole because there are no rules. -/
theorem segmentsWith_unfiltered {engine : Engine} (wellFormed : engine.WellFormed)
    (unfiltered : engine.anchors = none) (find : Anchor.Search) (text : Bytes) :
    Joins (engine.segmentsWith find text) (engine.segmentsFrom (Cursor.inside text 0)) := by
  simp only [segmentsWith, unfiltered]
  split
  · next ruleless =>
      have silent : ∀ place, engine.Silent text place := by
        intro place compiled member
        rw [List.isEmpty_iff.mp ruleless] at member
        cases member
      obtain ⟨pieces, joined, scanned⟩ := segmentsFrom_silent wellFormed
        (Nat.zero_le text.length) (Nat.le_refl _) (fun place _ _ => silent place)
        (by simp [Utf8.Aligned])
      have all : text = pieces.flatten := by
        rw [joined, Bytes.between_length, List.drop_zero]
      rw [scanned, segmentsFrom_end]
      rw [all]
      exact .join pieces .nil
  · exact .refl _

end Engine

end Stencil
