import Mathlib.Tactic.TFAE
import Stencil.Proofs.Engine

/-!
# Matches that consume nothing

A pattern whose significant tokens are all optional matches at every place of every
text: no token of it can fail when blocks need no closer.  Any other pattern takes at
least one byte wherever it matches, because a mandatory token has a share that is not
empty.  So an engine copies a character behind a match only for rules of the first
kind.
-/

namespace Stencil

/-- Every significant token of the pattern may match nothing. -/
def Pattern.AllOptional (pattern : Pattern) : Prop :=
  ∀ token ∈ pattern.tokens, token.isSpace = false → token.optional = true

namespace Token

/-- A run of blocks that need no closer never fails. -/
theorem exists_blockRun (opener closer : Bytes) (cursor : Cursor) :
    ∃ run, blockRun false opener closer cursor = some run := by
  fun_induction blockRun false opener closer cursor with
  | case1 => exact ⟨_, rfl⟩
  | case2 cursor block found _ inner behind closed again ih =>
      obtain ⟨run, ran⟩ := ih
      rw [ran]
      exact ⟨_, rfl⟩
  | case3 => exact ⟨_, rfl⟩
  | case4 => contradiction
  | case5 => exact ⟨_, rfl⟩

/-- White space or an optional token in front of optional tokens does not fail. -/
theorem exists_step? (afterSpace skipped : Bool) {later : List Token} {token : Token}
    (cursor : Cursor) (optional : token.isSpace = false → token.optional = true)
    (restOptional : allOptional later = true) :
    ∃ step, step? false afterSpace skipped later token cursor = some step := by
  cases element : token.element with
  | literal =>
      simp [isSpace, Token.optional, reference?, element] at optional
  | space =>
      simp only [step?, element, restOptional, Bool.true_or, if_true]
      split <;> exact ⟨_, rfl⟩
  | «variable» reference =>
      have may : reference.optional = true := by
        simpa [isSpace, Token.optional, reference?, element] using optional
      simp [step?, element, may]
  | block reference delimiters =>
      have may : reference.optional = true := by
        simpa [isSpace, Token.optional, reference?, element] using optional
      simp only [step?, element, may, if_true, Bool.not_false, Bool.or_true]
      split <;> exact ⟨_, rfl⟩
  | blocks reference delimiters =>
      have may : reference.optional = true := by
        simpa [isSpace, Token.optional, reference?, element] using optional
      obtain ⟨⟨inners, last⟩, ran⟩ :=
        exists_blockRun delimiters.opener delimiters.closer cursor
      simp only [step?, element, may, if_true, ran]
      cases inners <;> exact ⟨_, rfl⟩

theorem exists_run? (afterSpace skipped : Bool) {tokens : List Token} (cursor : Cursor)
    (optional : ∀ token ∈ tokens, token.isSpace = false → token.optional = true) :
    ∃ run, run? false afterSpace skipped tokens cursor = some run := by
  induction tokens generalizing afterSpace skipped cursor with
  | nil => exact ⟨_, rfl⟩
  | cons token later ih =>
      rw [List.forall_mem_cons] at optional
      obtain ⟨step, stepped⟩ := exists_step? afterSpace skipped cursor optional.1
        (allOptional_iff.mpr optional.2)
      obtain ⟨run, ran⟩ := ih token.isSpace step.skipped step.cursor optional.2
      simp only [run?, stepped, ran, Option.map_some]
      exact ⟨_, rfl⟩

end Token

theorem BlockRun.lt {strict : Bool} {text : Bytes} {delimiters : Delimiters}
    {inners : List Slice} {start stop : Nat}
    (run : BlockRun strict text delimiters start inners stop) : start < stop := by
  cases run with
  | last found => exact found.lt
  | more found _ space _ later =>
      exact Nat.lt_of_lt_of_le found.lt (Nat.le_trans space.ordered later.ordered.1)

namespace Share

/-- A significant token with an empty share is optional. -/
theorem Fits.optional {strict : Bool} {text : Bytes} {earlier : List Share} {share : Share}
    {later : List Token} (fits : share.Fits strict text earlier later)
    (wellFormed : share.token.WellFormed) (empty : share.stop = share.start)
    (significant : share.token.isSpace = false) : share.token.optional = true := by
  unfold Fits at fits
  split at fits
  · next literal =>
      simp only [Token.WellFormed, literal] at wellFormed
      rw [empty, Bytes.between_self] at fits
      exact absurd fits.1.symm wellFormed
  · next space =>
      simp [Token.isSpace, space] at significant
  · next reference isVariable =>
      obtain ⟨first, leading, word, mandatory, -⟩ := fits
      have behind : share.start ≤ first := by
        split at leading
        · exact Nat.le_of_eq leading.symm
        · exact leading.ordered
      have ordered := word.ordered
      simpa [Token.optional, Token.reference?, isVariable] using mandatory (by omega)
  · next reference delimiters isBlock =>
      rcases fits with ⟨block, found, -⟩ | absent
      · have taken := found.lt
        omega
      · simpa [Token.optional, Token.reference?, isBlock] using absent.1
  · next reference delimiters isBlocks =>
      rcases fits with ⟨inners, run, -⟩ | absent
      · have taken := run.lt
        omega
      · simpa [Token.optional, Token.reference?, isBlocks] using absent.1

theorem Consecutive.empty {start stop : Nat} {shares : List Share}
    (consecutive : Consecutive start shares stop) (still : stop ≤ start) :
    ∀ share ∈ shares, share.stop = share.start := by
  induction consecutive with
  | nil => simp
  | @cons share shares stop ordered later ih =>
      have behind := later.le
      exact List.forall_mem_cons.mpr ⟨by omega, ih (by omega)⟩

end Share

namespace Pattern

section Empty

variable {pattern : Pattern} {strict : Bool} {text : Bytes} {found : Match}

theorem AllOptional.exists_match (optional : pattern.AllOptional) {start : Nat}
    (inside : start ≤ text.length) : ∃ found, pattern.matchAt? false text start = some found := by
  obtain ⟨run, ran⟩ := Token.exists_run? false false (Cursor.inside text start) optional
  rw [matchAt?_ofNat inside, matchFrom?, ran]
  exact ⟨_, rfl⟩

/-- Only patterns of optional tokens have empty matches, strict or not. -/
theorem allOptional_of_empty (wellFormed : ∀ token ∈ pattern.tokens, token.WellFormed)
    {start : Int} (matched : pattern.matchAt? strict text start = some found)
    (empty : found.stop = found.start) : pattern.AllOptional := by
  cases start with
  | negSucc n => cases matched
  | ofNat place =>
      by_cases inside : place ≤ text.length
      · have here : pattern.matchFrom? strict (Cursor.inside text place) = some found :=
          (matchAt?_ofNat inside).symm.trans matched
        obtain ⟨shares, stop, reading, rfl⟩ := (matchFrom?_eq_some_iff wellFormed inside).mp here
        have still : stop = place := (matchOf_stop reading).symm.trans empty
        intro token member significant
        have listed := member
        rw [← reading.tokens] at listed
        obtain ⟨share, shareMember, rfl⟩ := List.mem_map.mp listed
        obtain ⟨before, after, split⟩ := List.append_of_mem shareMember
        exact (reading.fits before share after split).optional (wellFormed _ member)
          (reading.consecutive.empty (Nat.le_of_eq still) share shareMember) significant
      · have absent : pattern.matchAt? strict text (.ofNat place) = none := if_neg inside
        rw [absent] at matched
        cases matched

end Empty

end Pattern

namespace Engine

section Forced

variable {engine : Engine} {text : Bytes}

theorem Scans.exists_cuts {place : Nat} {segments : List Segment}
    (scans : engine.Scans text place segments) :
    ∀ segment ∈ segments, ∃ place behind, engine.Cuts text place segment behind := by
  induction scans with
  | done => simp
  | cut cuts _ ih => exact List.forall_mem_cons.mpr ⟨⟨_, _, cuts⟩, ih⟩

/-- Between the anchors text is copied; every other segment is cut as by the scan. -/
theorem cuts_of_mem_segmentsFromAnchors (wellFormed : engine.WellFormed) (find : Anchor.Search)
    (anchors : List Bytes) {place : Nat} (inside : place ≤ text.length) :
    ∀ segment ∈ engine.segmentsFromAnchors find anchors text (Cursor.inside text place),
      (∃ part, segment = .copied part) ∨
        ∃ start behind, engine.Cuts text start segment behind := by
  -- every segment is nonempty, so less and less of the text remains
  generalize remaining : text.length - place = n
  induction n using Nat.strongRecOn generalizing place with
  | ind n ih =>
      rw [segmentsFromAnchors]
      split
      · simp
      split
      · simp
      next gap _ =>
        split
        · simp
        next more =>
          rw [Cursor.inside_advance, Cursor.inside_rest] at more
          have within : place + gap < text.length := by
            have long := List.length_pos_iff.mpr more
            rw [List.length_drop] at long
            omega
          obtain ⟨behind, cuts, moved⟩ := segmentAt_cuts wellFormed within
          obtain ⟨later, bound, -⟩ := cuts.source wellFormed
          simp only [Cursor.inside_advance, moved]
          refine List.forall_mem_cons.mpr ⟨.inl ⟨_, rfl⟩, List.forall_mem_cons.mpr
            ⟨.inr ⟨_, _, cuts⟩, ih (text.length - behind) (by omega) bound rfl⟩⟩

theorem cuts_of_mem_segmentsWith (wellFormed : engine.WellFormed) (find : Anchor.Search) :
    ∀ segment ∈ engine.segmentsWith find text,
      (∃ part, segment = .copied part) ∨
        ∃ start behind, engine.Cuts text start segment behind := by
  unfold segmentsWith
  split
  · simp
  split
  · intro segment member
    exact .inr ((scans_segmentsFrom wellFormed (Nat.zero_le _)).exists_cuts segment member)
  · next anchors _ =>
      exact cuts_of_mem_segmentsFromAnchors wellFormed find anchors (Nat.zero_le _)

/-- A rule whose match is followed by a copied character has only optional tokens. -/
theorem allOptional_of_inserted (wellFormed : engine.WellFormed) {find : Anchor.Search}
    {rule : Rule} {found : Match} {expansion char : Bytes}
    (member : .inserted rule found expansion char ∈ engine.segmentsWith find text) :
    ∃ compiled ∈ engine.rules, compiled.rule = rule ∧ compiled.pattern.AllOptional := by
  rcases cuts_of_mem_segmentsWith wellFormed find _ member with ⟨part, same⟩ | ⟨place, behind, cuts⟩
  · cases same
  · cases cuts with
    | @inserted _ compiled _ _ inside wins nothing _ =>
        have listed := List.mem_of_getElem? wins.listed
        have begins : found.start = place :=
          congrArg Slice.start (wins.located wellFormed (Nat.le_of_lt inside)).1
        exact ⟨compiled, listed, rfl, Pattern.allOptional_of_empty (wellFormed compiled listed)
          wins.matched (nothing.trans begins.symm)⟩

/-- The rules of an engine are told apart by what is written in them. -/
theorem eq_of_mem_rules {rules : List Rule} {options : Options}
    (compiled : compile rules options = .ok engine) {first second : CompiledRule}
    (isFirst : first ∈ engine.rules) (isSecond : second ∈ engine.rules)
    (same : first.rule = second.rule) : first = second := by
  obtain ⟨-, rfl⟩ := compile_eq_ok_iff.mp compiled
  obtain ⟨rule, -, rfl⟩ := List.mem_map.mp isFirst
  obtain ⟨other, -, rfl⟩ := List.mem_map.mp isSecond
  obtain rfl : rule = other := same
  rfl

end Forced

end Engine

deriving instance DecidableEq for Segment

namespace Pattern

/-- A compiled pattern has optional tokens only, matches at every place of every text, or
matches somewhere without consuming anything: the three are the same.  So with a
mandatory token every match takes a byte, and an engine copies a character behind the
match of a rule only if all tokens of that rule are optional. -/
theorem empty_match_tfae {source : Bytes} {symbols : Symbols} {pattern : Pattern}
    (compiled : compile source symbols = .ok pattern) :
    List.TFAE [
        pattern.AllOptional,
        ∀ (text : Bytes) (start : Nat), start ≤ text.length →
          ∃ found, pattern.matchAt? false text start = some found,
        ∃ (text : Bytes) (start : Nat) (found : Match),
          pattern.matchAt? false text start = some found ∧ found.stop = found.start] ∧
      (∀ token ∈ pattern.tokens, token.isSpace = false → token.optional = false →
        ∀ (strict : Bool) (text : Bytes) (start : Int) (found : Match),
          pattern.matchAt? strict text start = some found → found.start < found.stop) ∧
      (∀ (rules : List Rule) (options : Options) (engine : Engine) (rule : Rule),
        Engine.compile rules options = .ok engine → ⟨rule, pattern⟩ ∈ engine.rules →
          ∀ (find : Anchor.Search) (text : Bytes) (found : Match) (expansion char : Bytes),
            .inserted rule found expansion char ∈ engine.segmentsWith find text →
              pattern.AllOptional) := by
  have wellFormed := wellFormed_of_compile compiled
  refine ⟨?_, ?_, ?_⟩
  · tfae_have 1 → 2 := fun optional text start inside => AllOptional.exists_match optional inside
    tfae_have 2 → 3 := by
      intro everywhere
      obtain ⟨found, matched⟩ := everywhere [] 0 (Nat.le_refl _)
      obtain ⟨here, -, bound, -⟩ := matchAt?_located wellFormed (Nat.le_refl _) matched
      have begins : found.start = 0 := congrArg Slice.start here
      exact ⟨[], 0, found, matched, (Nat.le_zero.mp bound).trans begins.symm⟩
    tfae_have 3 → 1 := by
      rintro ⟨text, start, found, matched, empty⟩
      exact allOptional_of_empty wellFormed matched empty
    tfae_finish
  · intro token member significant mandatory strict text start found matched
    apply Nat.lt_of_le_of_ne (Nat.le_add_right _ _)
    intro empty
    have optional := allOptional_of_empty wellFormed matched empty.symm token member significant
    rw [mandatory] at optional
    cases optional
  · intro rules options engine rule engineCompiled listed find text found expansion char inserted
    obtain ⟨winner, winnerListed, same, optional⟩ :=
      Engine.allOptional_of_inserted (Engine.wellFormed_of_compile engineCompiled) inserted
    obtain rfl := Engine.eq_of_mem_rules engineCompiled winnerListed listed same
    exact optional

/-- Two optional blocks with white space between them: all of it is missing in front of
`x`.  A literal is mandatory, also in a strict match. -/
theorem empty_match_tfae_absent_blocks :
    (∃ pattern, compile (bytes "$\x7b(\x7d\x7b)\x7da? $$\x7b[\x7d\x7b]\x7db?") .standard =
        .ok pattern ∧
      (∀ (text : Bytes) (start : Nat), start ≤ text.length →
        ∃ found, pattern.matchAt? false text start = some found) ∧
      ∃ engine rule found expansion char, Engine.compile [rule] {} = .ok engine ∧
        ⟨rule, pattern⟩ ∈ engine.rules ∧
        .inserted rule found expansion char ∈ engine.segmentsWith Anchor.firstEnd? (bytes "x") ∧
        pattern.AllOptional) ∧
    ∃ pattern found, compile (bytes "$a?,") .standard = .ok pattern ∧
      pattern.matchAt? true (bytes "-,") 1 = some found ∧ found.start < found.stop := by
  constructor
  · have consequences := empty_match_tfae
      (compile_standard (bytes "$\x7b(\x7d\x7b)\x7da? $$\x7b[\x7d\x7b]\x7db?"))
    let found : Match :=
      ⟨⟨0, []⟩, [⟨bytes "a", ⟨0, []⟩, none⟩, ⟨bytes "b", ⟨0, []⟩, none⟩], bytes "x"⟩
    let rule : Rule := ⟨[], bytes "$\x7b(\x7d\x7b)\x7da? $$\x7b[\x7d\x7b]\x7db?", bytes "-"⟩
    obtain ⟨engine, compiled⟩ : ∃ engine, Engine.compile [rule] {} = .ok engine :=
      Engine.exists_compile (Symbols.fault?_eq_none_iff.mp (by decide)) _
    have fields := (Engine.compile_eq_ok_iff.mp compiled).2
    have listed : CompiledRule.of .standard rule ∈ engine.rules := by
      rw [fields]
      exact List.mem_singleton_self _
    have inserted : .inserted rule found (bytes "-") (bytes "x") ∈
        engine.segmentsWith Anchor.firstEnd? (bytes "x") := by
      rw [fields]
      decide +kernel
    have everywhere := consequences.1.out 2 1
    refine ⟨_, compile_standard _, everywhere.mp ⟨bytes "x", 0, found, ?_, rfl⟩,
      engine, rule, _, _, _, compiled, listed, inserted,
      consequences.2.2 _ _ _ _ compiled listed _ _ _ _ _ inserted⟩
    decide +kernel
  · have consequences := empty_match_tfae (compile_standard (bytes "$a?,"))
    refine ⟨_, ⟨⟨1, bytes ","⟩, [⟨bytes "a", ⟨1, []⟩, none⟩], []⟩, compile_standard _, ?_,
      consequences.2.1 ⟨⟨3, bytes ","⟩, .literal, {}⟩ ?_ rfl rfl true (bytes "-,") 1 _ ?_⟩
    · decide +kernel
    · decide +kernel
    · decide +kernel

end Pattern

end Stencil
