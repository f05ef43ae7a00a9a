import Stencil.Proofs.AnchorSearch
import Stencil.Proofs.Engine

/-!
# Scanning from anchor to anchor

The scan that visits only the places where an anchor begins makes the same
segments as the scan that tries every place, except that it copies the text
between two such places as a whole.  A place it passes over could not have
matched.  A place it stops at is one the other scan arrives at, because an
anchor does not begin inside a character.
-/

namespace Stencil

theorem Pattern.anchor_prefix {pattern : Pattern}
    (wellFormed : ∀ token ∈ pattern.tokens, token.WellFormed) {anchor : Bytes}
    (anchored : pattern.anchor? = some anchor) {strict : Bool} {text : Bytes} {place : Nat}
    (inside : place ≤ text.length) {found : Match}
    (matched : pattern.matchAt? strict text place = some found) :
    anchor <+: text.drop place := by
  rw [matchAt?_ofNat inside] at matched
  obtain ⟨shares, stop, reading, rfl⟩ := (matchFrom?_eq_some_iff wellFormed inside).mp matched
  unfold anchor? at anchored
  split at anchored
  · cases anchored
  next token later tokens =>
    rw [tokens] at reading
    obtain ⟨share, rest, rfl, rfl, rfl, ordered, fits, behind⟩ := reading.uncons
    have bound := Nat.le_trans behind.consecutive.le behind.inside
    split at anchored
    · cases anchored
    next mandatory =>
      simp only [Token.opening?] at anchored
      split at anchored
      · next literal =>
          cases anchored
          simp only [Share.Fits, literal] at fits
          exact ((Bytes.prefix_drop_iff ordered bound).mp fits.1).1
      · next reference delimiters block =>
          cases anchored
          simp only [Share.Fits, block] at fits
          rcases fits with ⟨_, read, _⟩ | ⟨optional, _⟩
          · exact read.opener_prefix
          · simp [Token.optional, Token.reference?, block, optional] at mandatory
      · next reference delimiters blocks =>
          cases anchored
          simp only [Share.Fits, blocks] at fits
          rcases fits with ⟨_, run, _⟩ | ⟨optional, _⟩
          · exact run.opener_prefix
          · simp [Token.optional, Token.reference?, blocks, optional] at mandatory
      · cases anchored

theorem Pattern.anchor_ne_nil {pattern : Pattern}
    (wellFormed : ∀ token ∈ pattern.tokens, token.WellFormed) {anchor : Bytes}
    (anchored : pattern.anchor? = some anchor) : anchor ≠ [] := by
  unfold anchor? at anchored
  split at anchored
  · cases anchored
  next token later tokens =>
    split at anchored
    · cases anchored
    · exact (wellFormed token (by simp [tokens])).opening_ne_nil anchored

namespace Engine

/-- The anchors are those of the engine's rules. -/
structure Anchored (engine : Engine) (anchors : List Bytes) : Prop where
  covers : ∀ compiled ∈ engine.rules, ∃ anchor ∈ anchors,
    compiled.pattern.anchor? = some anchor
  stems : ∀ anchor ∈ anchors, ∃ compiled ∈ engine.rules,
    compiled.pattern.anchor? = some anchor

theorem anchored_of_mapM {engine : Engine} {anchors : List Bytes}
    (all : engine.rules.mapM (·.pattern.anchor?) = some anchors) : engine.Anchored anchors := by
  have listed : engine.rules.map (·.pattern.anchor?) = anchors.map some := by
    generalize engine.rules = rules at all
    induction rules generalizing anchors with
    | nil =>
        cases all
        rfl
    | cons compiled rules ih =>
        rw [List.mapM_cons] at all
        obtain ⟨first, begins, rest⟩ := Option.bind_eq_some_iff.mp all
        obtain ⟨later, collected, same⟩ := Option.bind_eq_some_iff.mp rest
        cases same
        rw [List.map_cons, List.map_cons, begins, ih collected]
  constructor
  · intro compiled member
    have anchor : compiled.pattern.anchor? ∈ anchors.map some := by
      rw [← listed]
      exact List.mem_map_of_mem member
    obtain ⟨anchor, member, same⟩ := List.mem_map.mp anchor
    exact ⟨anchor, member, same.symm⟩
  · intro anchor member
    have stem : some anchor ∈ engine.rules.map (·.pattern.anchor?) := by
      rw [listed]
      exact List.mem_map_of_mem member
    exact List.mem_map.mp stem

section Prefilter

variable {engine : Engine} {text : Bytes}

theorem Anchored.silent {anchors : List Bytes} (anchored : engine.Anchored anchors)
    (wellFormed : engine.WellFormed) {place : Nat} (inside : place ≤ text.length)
    (absent : Anchor.beginsAt anchors (text.drop place) = false) :
    engine.Silent text place := by
  intro compiled member
  obtain ⟨anchor, listed, begins⟩ := anchored.covers compiled member
  rw [← Bool.not_eq_true, Anchor.beginsAt_iff] at absent
  cases matched : compiled.pattern.matchAt? engine.options.strictBlocks text place with
  | none => rfl
  | some found =>
      have stands := Pattern.anchor_prefix (wellFormed compiled member) begins inside matched
      exact (absent ⟨anchor, listed, stands⟩).elim

variable {find : Anchor.Search} {anchors : List Bytes}

theorem Anchored.aligned {goal : Nat} (anchored : engine.Anchored anchors)
    (wellFormed : engine.WellFormed) (apart : ∀ anchor ∈ anchors, Utf8.Aligned anchor)
    (begins : Anchor.beginsAt anchors (text.drop goal) = true) :
    Utf8.Aligned (text.drop goal) := by
  obtain ⟨anchor, member, stands⟩ := Anchor.beginsAt_iff.mp begins
  obtain ⟨compiled, listed, stem⟩ := anchored.stems anchor member
  exact (apart anchor member).of_occurs
    (Pattern.anchor_ne_nil (wellFormed compiled listed) stem) stands

theorem Anchored.nil_not_mem (anchored : engine.Anchored anchors)
    (wellFormed : engine.WellFormed) : [] ∉ anchors := by
  intro member
  obtain ⟨compiled, listed, stem⟩ := anchored.stems [] member
  exact Pattern.anchor_ne_nil (wellFormed compiled listed) stem rfl

theorem segmentsFromAnchors_end :
    engine.segmentsFromAnchors find anchors text (Cursor.inside text text.length) = [] := by
  rw [segmentsFromAnchors, if_pos (by simp)]

theorem segmentsFromAnchors_none {place : Nat} (inside : place < text.length)
    (absent : Anchor.next? find anchors text place = none) :
    engine.segmentsFromAnchors find anchors text (Cursor.inside text place) =
      [.copied (text.drop place)] := by
  have more : (Cursor.inside text place).rest ≠ [] := Bytes.drop_ne_nil inside
  rw [segmentsFromAnchors, if_neg more, Cursor.inside_offset, absent]
  rfl

theorem segmentsFromAnchors_some {place goal behind : Nat} (ordered : place ≤ goal)
    (inside : goal < text.length) (next : Anchor.next? find anchors text place = some goal)
    (moved : (Cursor.inside text goal).moveTo
      (engine.segmentAt (Cursor.inside text goal)).2 = Cursor.inside text behind) :
    engine.segmentsFromAnchors find anchors text (Cursor.inside text place) =
      .copied (text.between place goal) :: (engine.segmentAt (Cursor.inside text goal)).1 ::
        engine.segmentsFromAnchors find anchors text (Cursor.inside text behind) := by
  have more : (Cursor.inside text place).rest ≠ [] :=
    Bytes.drop_ne_nil (Nat.lt_of_le_of_lt ordered inside)
  have goalMore : (Cursor.inside text goal).rest ≠ [] := Bytes.drop_ne_nil inside
  have arrived : (Cursor.inside text place).advance (goal - place) =
      Cursor.inside text goal := by
    rw [Cursor.inside_advance, Nat.add_sub_of_le ordered]
  rw [segmentsFromAnchors, if_neg more, Cursor.inside_offset, next]
  simp only [Option.map_some, arrived]
  rw [dif_neg goalMore, moved]
  rfl

/-- The scan from anchor to anchor joins what the scan of every place copies. -/
theorem segmentsFromAnchors_joins (lawful : find.Lawful) (wellFormed : engine.WellFormed)
    (anchored : engine.Anchored anchors) (someAnchor : anchors ≠ [])
    (apart : ∀ anchor ∈ anchors, Utf8.Aligned anchor) {place : Nat}
    (inside : place ≤ text.length) :
    Joins (engine.segmentsFromAnchors find anchors text (Cursor.inside text place))
      (engine.segmentsFrom (Cursor.inside text place)) := by
  have nonempty := anchored.nil_not_mem wellFormed
  generalize remaining : text.length - place = n
  induction n using Nat.strongRecOn generalizing place with
  | ind n ih =>
      rcases Nat.eq_or_lt_of_le inside with rfl | more
      · rw [segmentsFromAnchors_end, segmentsFrom_end]
        exact .nil
      cases next : Anchor.next? find anchors text place with
      | none =>
          have absent := Anchor.next?_eq_none lawful someAnchor nonempty next
          obtain ⟨pieces, joined, scanned⟩ := segmentsFrom_silent wellFormed inside
            (Nat.le_refl _)
            (fun between atLeast before =>
              anchored.silent wellFormed (Nat.le_of_lt before) (absent between atLeast))
            (by simp [Utf8.Aligned])
          have all : text.drop place = pieces.flatten := by
            rw [joined, Bytes.between_length]
          rw [segmentsFromAnchors_none more next, scanned, segmentsFrom_end, all]
          exact .join pieces .nil
      | some goal =>
          obtain ⟨ordered, goalInside, begins, absent⟩ :=
            Anchor.next?_eq_some lawful someAnchor nonempty next
          obtain ⟨pieces, joined, scanned⟩ := segmentsFrom_silent wellFormed ordered
            (Nat.le_of_lt goalInside)
            (fun between atLeast before =>
              anchored.silent wellFormed (by omega) (absent between atLeast before))
            (anchored.aligned wellFormed apart begins)
          obtain ⟨behind, cuts, moved⟩ := segmentAt_cuts wellFormed goalInside
          obtain ⟨later, bound, _⟩ := cuts.source wellFormed
          rw [segmentsFromAnchors_some ordered goalInside next moved, ← joined, scanned,
            segmentsFrom_inside goalInside moved]
          exact .join pieces (.same _ (ih (text.length - behind) (by omega) bound rfl))

end Prefilter

/-- The anchors an engine uses are those of its rules; there are some, and none
is empty. -/
theorem anchored_of_compile {rules : List Rule} {options : Options} {engine : Engine}
    {anchors : List Bytes} (compiled : compile rules options = .ok engine)
    (filter : engine.anchors = some anchors) :
    engine.Anchored anchors ∧ anchors ≠ [] ∧ [] ∉ anchors := by
  obtain ⟨someRule, all⟩ := mapM_of_anchors compiled filter
  have anchored := anchored_of_mapM all
  refine ⟨anchored, ?_, anchored.nil_not_mem (wellFormed_of_compile compiled)⟩
  obtain ⟨first, listed⟩ := List.exists_mem_of_ne_nil _ someRule
  obtain ⟨anchor, member, _⟩ := anchored.covers first listed
  exact List.ne_nil_of_mem member

/-- The segments of a text are those of the scan of every place, with copied
pieces joined. -/
theorem segmentsWith_joins {find : Anchor.Search} (lawful : find.Lawful) {rules : List Rule}
    {options : Options} {engine : Engine} (compiled : compile rules options = .ok engine)
    (apart : ∀ compiled ∈ engine.rules, ∀ anchor ∈ compiled.pattern.anchor?,
      Utf8.Aligned anchor) (text : Bytes) :
    Joins (engine.segmentsWith find text) (engine.segmentsFrom (Cursor.inside text 0)) := by
  have wellFormed := wellFormed_of_compile compiled
  cases filter : engine.anchors with
  | none => exact segmentsWith_unfiltered wellFormed filter find text
  | some anchors =>
      obtain ⟨anchored, someAnchor, _⟩ := anchored_of_compile compiled filter
      have someRule := (mapM_of_anchors compiled filter).1
      unfold segmentsWith
      rw [if_neg (by simpa using someRule), filter]
      apply segmentsFromAnchors_joins lawful wellFormed anchored someAnchor _ (Nat.zero_le _)
      intro other member
      obtain ⟨stem, listed, begins⟩ := anchored.stems other member
      exact apart stem listed other begins

theorem segmentsFrom_congr {engine other : Engine} (rules : engine.rules = other.rules)
    (strict : engine.options.strictBlocks = other.options.strictBlocks)
    (symbols : engine.options.symbols = other.options.symbols) (cursor : Cursor) :
    engine.segmentsFrom cursor = other.segmentsFrom cursor := by
  have same : ∀ cursor, engine.segmentAt cursor = other.segmentAt cursor := by
    intro cursor
    simp only [segmentAt, rules, strict, symbols]
  fun_induction segmentsFrom engine cursor with
  | case1 cursor empty => rw [segmentsFrom, dif_pos empty]
  | case2 cursor more _ ih =>
      rw [ih, same, segmentsFrom.eq_def other cursor, dif_neg more]

/-- Passing over places without an anchor changes neither the output nor the
counts, as long as no anchor begins inside a character. -/
theorem processStats_prefilter {find : Anchor.Search} (lawful : find.Lawful)
    (rules : List Rule) (options : Options) (valid : options.normalized.symbols.Valid) :
    ∃ filtered plain,
      compile rules { options with disablePrefilter := false } = .ok filtered ∧
        compile rules { options with disablePrefilter := true } = .ok plain ∧
        ((∀ compiled ∈ filtered.rules, ∀ anchor ∈ compiled.pattern.anchor?,
            Utf8.Aligned anchor) →
          ∀ text, filtered.processStatsWith find text = plain.processStats text) := by
  obtain ⟨filtered, filteredCompiled⟩ :
      ∃ engine, compile rules { options with disablePrefilter := false } = .ok engine := by
    apply exists_compile
    exact valid
  obtain ⟨plain, plainCompiled⟩ :
      ∃ engine, compile rules { options with disablePrefilter := true } = .ok engine := by
    apply exists_compile
    exact valid
  refine ⟨filtered, plain, filteredCompiled, plainCompiled, ?_⟩
  intro apart text
  have filteredFields := (compile_eq_ok_iff.mp filteredCompiled).2
  have plainFields := (compile_eq_ok_iff.mp plainCompiled).2
  have unfiltered : plain.anchors = none := by
    rw [plainFields]
    rfl
  -- the engines differ only in fields that the scan of every place does not read
  have same : filtered.segmentsFrom (Cursor.inside text 0) =
      plain.segmentsFrom (Cursor.inside text 0) := by
    rw [filteredFields, plainFields]
    apply segmentsFrom_congr <;> rfl
  have joins := segmentsWith_joins lawful filteredCompiled apart text
  have plainJoins := segmentsWith_unfiltered (wellFormed_of_compile plainCompiled) unfiltered
    Anchor.firstEnd? text
  simp only [processStats, processStatsWith]
  rw [joins.outputOf_eq, joins.statsOf_eq, plainJoins.outputOf_eq, plainJoins.statsOf_eq, same]

/-- Two anchors, `abc` and `b`: in the text, behind the byte of a broken
character, the shorter one ends first but begins inside the longer one. -/
theorem processStats_prefilter_nested :
    ∃ filtered plain,
      compile [⟨[], [0x61, 0x62, 0x63], [0x31]⟩, ⟨[], [0x62], [0x32]⟩] {} = .ok filtered ∧
        compile [⟨[], [0x61, 0x62, 0x63], [0x31]⟩, ⟨[], [0x62], [0x32]⟩]
          { disablePrefilter := true } = .ok plain ∧
        filtered.anchors = some [[0x61, 0x62, 0x63], [0x62]] ∧
        filtered.processStatsWith Anchor.firstEnd? [0xC3, 0x61, 0x62, 0x63, 0x62] =
          plain.processStats [0xC3, 0x61, 0x62, 0x63, 0x62] := by
  obtain ⟨filtered, plain, filteredCompiled, plainCompiled, same⟩ :=
    processStats_prefilter Anchor.firstEnd?_lawful
      [⟨[], [0x61, 0x62, 0x63], [0x31]⟩, ⟨[], [0x62], [0x32]⟩] {}
      (Symbols.fault?_eq_none_iff.mp (by decide))
  have fields := (compile_eq_ok_iff.mp filteredCompiled).2
  have anchors : filtered.anchors = some [[0x61, 0x62, 0x63], [0x62]] := by
    rw [fields]
    decide +kernel
  have apart : ∀ anchor ∈ [[0x61, 0x62, 0x63], [0x62]], Utf8.Aligned anchor := by
    intro anchor member
    apply Utf8.Valid.aligned
    rcases List.mem_cons.mp member with rfl | member
    · exact ⟨['a', 'b', 'c'], by decide⟩
    · rw [List.mem_singleton.mp member]
      exact ⟨['b'], by decide⟩
  refine ⟨filtered, plain, filteredCompiled, plainCompiled, anchors, same ?_ _⟩
  intro compiled listed anchor begins
  have anchored := anchored_of_mapM (mapM_of_anchors filteredCompiled anchors).2
  obtain ⟨stem, member, found⟩ := anchored.covers compiled listed
  cases begins.symm.trans found
  exact apart _ member

end Engine

end Stencil
