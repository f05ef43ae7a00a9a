import Mathlib.Data.List.SplitBy
import Stencil.Proofs.Engine
import Stencil.Proofs.TokenLayout

/-!
# Patterns without references

A pattern in which the sigil does not occur consists of literals and white space.  It
stands for texts that differ from it only in their white space: `Bytes.Spells` says
which.  Matching takes the longest such text, and nothing is captured.

Cutting such a pattern into tokens is cutting it into its runs, and the matcher reads
runs one by one: a literal begins without white space, so it shows where the white space
in front of it ends.
-/

namespace Stencil

namespace Bytes

/-- Nothing but white space. -/
def Blank (text : Bytes) : Prop :=
  ∀ b ∈ text, isSpace b = true

/-- No white space at all. -/
def Solid (text : Bytes) : Prop :=
  ∀ b ∈ text, isSpace b = false

instance (text : Bytes) : Decidable (Blank text) :=
  List.decidableBAll _ text

instance (text : Bytes) : Decidable (Solid text) :=
  List.decidableBAll _ text

/-- The text, cut wherever white space begins or ends. -/
def runs (text : Bytes) : List Bytes :=
  text.splitBy fun first second => isSpace first == isSpace second

/-- What the runs of a pattern stand for: a literal for itself, white space in front of
a literal for any white space, and white space at the end for any white space or none. -/
inductive Spells : List Bytes → Bytes → Prop where
  | nil : Spells [] []
  | literal {run text : Bytes} {later : List Bytes} :
      Solid run → Spells later text → Spells (run :: later) (run ++ text)
  | gap {run next space text : Bytes} {later : List Bytes} :
      Blank run → space ≠ [] → Blank space → Spells (next :: later) text →
      Spells (run :: next :: later) (space ++ text)
  | trailing {run space : Bytes} :
      Blank run → Blank space → Spells [run] space

/-- If the last of the runs is white space, no white space is left. -/
def Exhausts (runs : List Bytes) (rest : Bytes) : Prop :=
  ∀ run ∈ runs.getLast?, Blank run → ∀ b ∈ rest.head?, isSpace b = false

/-- The runs spell the text from one position to another, with all of the white space at
the end. -/
def Takes (runs : List Bytes) (cursor last : Cursor) : Prop :=
  ∃ taken, Spells runs taken ∧ cursor.rest = taken ++ last.rest ∧
    last.offset = cursor.offset + taken.length ∧ Exhausts runs last.rest

section Runs

variable {run rest text : Bytes}

theorem not_blank_of_solid (nonempty : run ≠ []) (solid : Solid run) : ¬ Blank run := by
  intro blank
  obtain ⟨b, tail, rfl⟩ := List.exists_cons_of_ne_nil nonempty
  have space := blank b List.mem_cons_self
  rw [solid b List.mem_cons_self] at space
  cases space

theorem head_dropWhile (text : Bytes) :
    ∀ b ∈ (text.dropWhile isSpace).head?, isSpace b = false := by
  intro b first
  have stops := List.head?_dropWhile_not isSpace text
  rwa [Option.mem_def.mp first] at stops

theorem runs_append {kind : Bool} (nonempty : run ≠ []) (uniform : ∀ b ∈ run, isSpace b = kind)
    (ends : ∀ b ∈ rest.head?, isSpace b ≠ kind) : runs (run ++ rest) = run :: runs rest := by
  have chain : run.IsChain fun first second => (isSpace first == isSpace second) = true := by
    apply List.Pairwise.isChain
    apply List.pairwise_of_forall_mem_list
    intro first isFirst second isSecond
    rw [uniform first isFirst, uniform second isSecond, beq_self_eq_true]
  have apart : ∀ last ∈ run.getLast?, ∀ first ∈ rest.head?,
      (isSpace last == isSpace first) = false := by
    intro last isLast first isFirst
    rw [uniform last (List.mem_of_getLast? isLast), beq_eq_false_iff_ne]
    exact (ends first isFirst).symm
  rw [runs, List.splitBy_append apart, List.splitBy_of_isChain nonempty chain]
  rfl

/-- A literal that comes first is where the text begins. -/
theorem Spells.head_solid {later : List Bytes} (spells : Spells (run :: later) text)
    (nonempty : run ≠ []) (solid : Solid run) (rest : Bytes) :
    ∀ b ∈ (text ++ rest).head?, isSpace b = false := by
  cases spells with
  | literal _ _ =>
      obtain ⟨b, tail, rfl⟩ := List.exists_cons_of_ne_nil nonempty
      rintro _ ⟨⟩
      exact solid b List.mem_cons_self
  | gap blank => exact absurd blank (not_blank_of_solid nonempty solid)
  | trailing blank => exact absurd blank (not_blank_of_solid nonempty solid)

/-- White space at the end of the runs may be longer. -/
theorem Spells.extend {runs : List Bytes} {space : Bytes} (spells : Spells runs text)
    (nonempty : ∀ run ∈ runs, run ≠ []) (ends : ∃ run ∈ runs.getLast?, Blank run)
    (isBlank : Blank space) : Spells runs (text ++ space) := by
  induction spells with
  | nil => simp at ends
  | @literal run text later solid spells ih =>
      obtain ⟨filled, laterFilled⟩ := List.forall_mem_cons.mp nonempty
      cases later with
      | nil =>
          obtain ⟨_, ⟨⟩, blank⟩ := ends
          exact absurd blank (not_blank_of_solid filled solid)
      | cons next later =>
          rw [List.append_assoc]
          exact .literal solid (ih laterFilled ends)
  | gap blank filled gapBlank _ ih =>
      rw [List.append_assoc]
      exact .gap blank filled gapBlank (ih (List.forall_mem_cons.mp nonempty).2 ends)
  | trailing blank lastBlank =>
      exact .trailing blank (List.forall_mem_append.mpr ⟨lastBlank, isBlank⟩)

/-- Runs spell themselves. -/
theorem spells_flatten {runs : List Bytes}
    (uniform : ∀ run ∈ runs, run ≠ [] ∧ (Solid run ∨ Blank run)) : Spells runs runs.flatten := by
  induction runs with
  | nil => exact .nil
  | cons run later ih =>
      obtain ⟨⟨nonempty, kind⟩, laterUniform⟩ := List.forall_mem_cons.mp uniform
      have behind := ih laterUniform
      rw [List.flatten_cons]
      rcases kind with solid | blank
      · exact .literal solid behind
      · cases later with
        | nil =>
            rw [List.flatten_nil, List.append_nil]
            exact .trailing blank blank
        | cons next later => exact .gap blank nonempty blank behind

end Runs

end Bytes

/-- The token is a literal or white space. -/
def Token.Plain (token : Token) : Prop :=
  token.text.text ≠ [] ∧
    (token.element = .literal ∧ Bytes.Solid token.text.text ∨
      token.element = .space ∧ Bytes.Blank token.text.text)

namespace Pattern

theorem literalRun_solid (sigil text : Bytes) : Bytes.Solid (literalRun sigil text).1 := by
  fun_induction literalRun sigil text with
  | case1 => exact List.forall_mem_nil _
  | case2 => exact List.forall_mem_nil _
  | case3 b text plain run rest split ih =>
      rw [split] at ih
      rw [Bool.or_eq_true, not_or, Bool.not_eq_true] at plain
      exact List.forall_mem_cons.mpr ⟨plain.1, ih⟩

/-- Where the sigil does not occur, the tokens are the runs of the pattern. -/
theorem tokensFrom_plain {symbols : Symbols} {offset : Nat} {text : Bytes}
    (absent : ¬ symbols.sigil <:+: text) :
    (tokensFrom symbols offset text).map (fun token => token.text.text) = Bytes.runs text ∧
      ∀ token ∈ tokensFrom symbols offset text, token.Plain := by
  fun_induction tokensFrom symbols offset text with
  | case1 => exact ⟨rfl, List.forall_mem_nil _⟩
  | case2 offset b tail blank run ih =>
      have whole : b :: tail = run ++ tail.dropWhile Bytes.isSpace := by
        rw [List.cons_append, List.takeWhile_append_dropWhile]
      have isBlank : Bytes.Blank run := List.forall_mem_cons.mpr
        ⟨blank, List.all_eq_true.mp List.all_takeWhile⟩
      rw [whole] at absent
      obtain ⟨texts, plain⟩ := ih fun occurs => absent (List.infix_append_of_infix_right occurs)
      refine ⟨?_, List.forall_mem_cons.mpr ⟨⟨List.cons_ne_nil _ _, .inr ⟨rfl, isBlank⟩⟩, plain⟩⟩
      rw [List.map_cons, texts, whole, Bytes.runs_append (List.cons_ne_nil _ _) isBlank]
      intro c first
      rw [Bytes.head_dropWhile tail c first]
      exact Bool.false_ne_true
  | case3 offset b tail notBlank begins read ih =>
      exact absurd (List.isPrefixOf_iff_prefix.mp begins).isInfix absent
  | case4 offset b tail notBlank noSigil run ih =>
      have whole : b :: tail = run ++ (literalRun symbols.sigil tail).2 := by
        rw [List.cons_append, literalRun_append]
      have isSolid : Bytes.Solid run := List.forall_mem_cons.mpr
        ⟨by simpa using notBlank, literalRun_solid symbols.sigil tail⟩
      rw [whole] at absent
      obtain ⟨texts, plain⟩ := ih fun occurs => absent (List.infix_append_of_infix_right occurs)
      refine ⟨?_, List.forall_mem_cons.mpr ⟨⟨List.cons_ne_nil _ _, .inl ⟨rfl, isSolid⟩⟩, plain⟩⟩
      rw [List.map_cons, texts, whole, Bytes.runs_append (List.cons_ne_nil _ _) isSolid]
      intro c first
      obtain ⟨rest, more⟩ := List.head?_eq_some_iff.mp first
      rcases literalRun_ends symbols.sigil tail more with space | begins
      · simp [space]
      · rw [← more] at begins
        exact absurd (List.infix_append_of_infix_right begins.isInfix) absent

theorem plain_of_compile {source : Bytes} {symbols : Symbols} {pattern : Pattern}
    (compiled : compile source symbols = .ok pattern) (absent : ¬ symbols.sigil <:+: source) :
    pattern.tokens.map (fun token => token.text.text) = Bytes.runs source ∧
      ∀ token ∈ pattern.tokens, token.Plain := by
  obtain ⟨-, rfl⟩ := compile_eq_ok_iff.mp compiled
  obtain ⟨texts, plain⟩ : _ ∧ ∀ token ∈ tokensFrom symbols 0 source, _ := tokensFrom_plain absent
  constructor
  · rw [← texts]
    have same := congrArg (List.map fun said : Slice × Element => said.1.text)
      (Token.map_linkFrom 0 (tokensFrom symbols 0 source))
    rw [List.map_map, List.map_map] at same
    exact same
  · intro token member
    obtain ⟨original, originalMember, text, element⟩ := Token.exists_of_mem_link member
    simpa only [Token.Plain, text, element] using plain original originalMember

end Pattern

theorem Cursor.skipSpace_of_blank {cursor : Cursor} {space rest : Bytes}
    (whole : cursor.rest = space ++ rest) (blank : Bytes.Blank space)
    (ends : ∀ b ∈ rest.head?, Bytes.isSpace b = false) :
    cursor.skipSpace = ⟨cursor.offset + space.length, rest⟩ := by
  obtain ⟨taken, left⟩ := Bytes.span_append blank ends
  rw [Cursor.skipSpace, whole, taken, left]

theorem Cursor.skipSpace_eq_self {cursor : Cursor}
    (solid : ¬ cursor.rest.head?.any Bytes.isSpace = true) : cursor.skipSpace = cursor := by
  apply Cursor.skipSpace_of_blank rfl (List.forall_mem_nil _)
  intro b first
  rw [Bool.eq_false_iff]
  exact fun blank => solid ((Option.any_eq_true _ _).mpr ⟨b, first, blank⟩)

section Takes

variable {run next : Bytes} {later : List Bytes} {cursor last : Cursor}

theorem Bytes.takes_nil : Takes [] cursor last ↔ last = cursor := by
  constructor
  · rintro ⟨taken, spells, whole, offset, -⟩
    cases spells
    obtain ⟨place, rest⟩ := last
    obtain ⟨start, text⟩ := cursor
    obtain rfl : text = rest := whole
    obtain rfl : place = start := offset
    rfl
  · rintro rfl
    exact ⟨[], .nil, rfl, rfl, by simp [Exhausts]⟩

theorem Bytes.takes_literal (nonempty : run ≠ []) (solid : Solid run) :
    Takes (run :: later) cursor last ↔
      run <+: cursor.rest ∧ Takes later (cursor.advance run.length) last := by
  have exhausts : Exhausts (run :: later) last.rest ↔ Exhausts later last.rest := by
    cases later with
    | nil => simp [Exhausts, not_blank_of_solid nonempty solid]
    | cons next later => rfl
  constructor
  · rintro ⟨taken, spells, whole, offset, ends⟩
    cases spells with
    | @literal _ text _ _ spells =>
        rw [List.append_assoc] at whole
        refine ⟨⟨_, whole.symm⟩, text, spells, ?_, ?_, exhausts.mp ends⟩
        · rw [Cursor.advance, whole, List.drop_left]
        · rw [offset, List.length_append, Cursor.advance, Nat.add_assoc]
    | gap blank => exact absurd blank (not_blank_of_solid nonempty solid)
    | trailing blank => exact absurd blank (not_blank_of_solid nonempty solid)
  · rintro ⟨⟨rest, begins⟩, text, spells, whole, offset, ends⟩
    refine ⟨run ++ text, .literal solid spells, ?_, ?_, exhausts.mpr ends⟩
    · simp only [Cursor.advance, ← begins, List.drop_left] at whole
      rw [← begins, whole, List.append_assoc]
    · rw [offset, List.length_append, Cursor.advance, Nat.add_assoc]

theorem Bytes.takes_trailing (nonempty : run ≠ []) (blank : Blank run) :
    Takes [run] cursor last ↔ last = cursor.skipSpace := by
  constructor
  · rintro ⟨taken, spells, whole, offset, ends⟩
    cases spells with
    | literal solid => exact absurd blank (not_blank_of_solid nonempty solid)
    | trailing _ isBlank =>
        rw [Cursor.skipSpace_of_blank whole isBlank (ends run rfl blank), ← offset]
  · rintro rfl
    exact ⟨_, .trailing blank (List.all_eq_true.mp List.all_takeWhile),
      List.takeWhile_append_dropWhile.symm, rfl, fun _ _ _ => head_dropWhile _⟩

theorem Bytes.takes_gap (nonempty : run ≠ []) (blank : Blank run) (nextNonempty : next ≠ [])
    (solid : Solid next) :
    Takes (run :: next :: later) cursor last ↔
      cursor.rest.head?.any Bytes.isSpace = true ∧
        Takes (next :: later) cursor.skipSpace last := by
  constructor
  · rintro ⟨taken, spells, whole, offset, ends⟩
    cases spells with
    | literal solid => exact absurd blank (not_blank_of_solid nonempty solid)
    | @gap _ _ space text _ _ filled isBlank spells =>
        rw [List.append_assoc] at whole
        rw [Cursor.skipSpace_of_blank whole isBlank (spells.head_solid nextNonempty solid _)]
        constructor
        · obtain ⟨b, tail, rfl⟩ := List.exists_cons_of_ne_nil filled
          rw [whole]
          exact isBlank b List.mem_cons_self
        · refine ⟨text, spells, rfl, ?_, ends⟩
          rw [offset, List.length_append, Nat.add_assoc]
  · rintro ⟨here, text, spells, whole, offset, ends⟩
    have filled : cursor.rest.takeWhile isSpace ≠ [] := by
      obtain ⟨b, first, isBlank⟩ := (Option.any_eq_true _ _).mp here
      obtain ⟨tail, more⟩ := List.head?_eq_some_iff.mp first
      simp [more, isBlank]
    refine ⟨_, .gap blank filled (List.all_eq_true.mp List.all_takeWhile) spells, ?_, ?_, ends⟩
    · rw [List.append_assoc, ← whole]
      exact List.takeWhile_append_dropWhile.symm
    · rw [offset, List.length_append, Cursor.skipSpace, Nat.add_assoc]

/-- Where the runs spell a beginning of the text, they take one. -/
theorem Bytes.Spells.exists_takes {runs : List Bytes} {taken rest : Bytes}
    (spells : Spells runs taken) (nonempty : ∀ run ∈ runs, run ≠ [])
    (whole : cursor.rest = taken ++ rest) : ∃ last, Takes runs cursor last := by
  by_cases ends : ∃ run ∈ runs.getLast?, Blank run
  · have isBlank : Blank (rest.takeWhile isSpace) := List.all_eq_true.mp List.all_takeWhile
    refine ⟨⟨cursor.offset + (taken ++ rest.takeWhile isSpace).length, rest.dropWhile isSpace⟩, _,
      spells.extend nonempty ends isBlank, ?_, rfl, fun _ _ _ => head_dropWhile rest⟩
    rw [whole, List.append_assoc, List.takeWhile_append_dropWhile]
  · refine ⟨⟨cursor.offset + taken.length, rest⟩, taken, spells, whole, rfl, ?_⟩
    intro run isLast blank
    exact absurd ⟨run, isLast, blank⟩ ends

end Takes

namespace Token

section Run

variable {strict afterSpace skipped : Bool} {token : Token} {later : List Token}
  {cursor : Cursor}

theorem run?_of_step?_none (failed : step? strict afterSpace skipped later token cursor = none) :
    run? strict afterSpace skipped (token :: later) cursor = none := by
  rw [run?, failed]

theorem run?_of_silent {moved : Cursor} {nothing : Bool}
    (stepped : step? strict afterSpace skipped later token cursor =
      some ⟨moved, none, nothing⟩) :
    run? strict afterSpace skipped (token :: later) cursor =
      run? strict token.isSpace nothing later moved := by
  rw [run?, stepped]
  exact Option.map_id'

/-- A run over a literal goes on behind its text. -/
theorem run?_literal (literal : token.element = .literal) :
    run? strict afterSpace skipped (token :: later) cursor =
      if token.text.text.isPrefixOf cursor.rest then
        run? strict false false later (cursor.advance token.text.length)
      else none := by
  have significant : token.isSpace = false := by simp [isSpace, literal]
  split
  · next begins =>
      have stepped : step? strict afterSpace skipped later token cursor =
          some ⟨cursor.advance token.text.length, none, false⟩ := by
        simp only [step?, literal, if_pos begins]
      rw [run?_of_silent stepped, significant]
  · next differs => exact run?_of_step?_none (by simp only [step?, literal, if_neg differs])

/-- A run over white space goes on behind the white space that is there, if there is some
or none is needed. -/
theorem run?_space (space : token.element = .space) :
    run? strict afterSpace skipped (token :: later) cursor =
      if cursor.rest.head?.any Bytes.isSpace || allOptional later || skipped then
        run? strict true skipped later cursor.skipSpace
      else none := by
  have blank : token.isSpace = true := isSpace_iff.mpr space
  by_cases here : cursor.rest.head?.any Bytes.isSpace = true
  · have stepped : step? strict afterSpace skipped later token cursor =
        some ⟨cursor.skipSpace, none, skipped⟩ := by
      simp only [step?, space, if_pos here]
    rw [run?_of_silent stepped, blank, here]
    rfl
  · rw [Bool.eq_false_iff.mpr here, Bool.false_or, Cursor.skipSpace_eq_self here]
    split
    · next allowed =>
        have stepped : step? strict afterSpace skipped later token cursor =
            some ⟨cursor, none, skipped⟩ := by
          simp only [step?, space, if_neg here, if_pos allowed]
        rw [run?_of_silent stepped, blank]
    · next needed =>
        exact run?_of_step?_none (by simp only [step?, space, if_neg here, if_neg needed])

end Run

/-- A run over literals and white space takes a text that they spell, and all of the
white space at the end. -/
theorem run?_eq_some_iff_takes {strict afterSpace : Bool} {tokens : List Token}
    (plain : ∀ token ∈ tokens, token.Plain) (chain : tokens.IsChain NotBothSpace)
    {cursor last : Cursor} {captures : List Capture} :
    run? strict afterSpace false tokens cursor = some (captures, last) ↔
      captures = [] ∧ Bytes.Takes (tokens.map fun token => token.text.text) cursor last := by
  induction tokens generalizing afterSpace cursor with
  | nil =>
      rw [List.map_nil, Bytes.takes_nil, run?, Option.some.injEq, Prod.mk.injEq]
      exact and_congr eq_comm eq_comm
  | cons token later ih =>
      obtain ⟨⟨nonempty, shape⟩, laterPlain⟩ := List.forall_mem_cons.mp plain
      rcases shape with ⟨literal, solid⟩ | ⟨space, blank⟩
      · rw [run?_literal literal, List.map_cons, Bytes.takes_literal nonempty solid]
        split
        · next begins =>
            rw [ih laterPlain chain.tail, and_iff_right (List.isPrefixOf_iff_prefix.mp begins)]
            rfl
        · next differs =>
            simp [mt List.isPrefixOf_iff_prefix.mpr differs]
      · cases later with
        | nil =>
            have missing : allOptional [] = true := rfl
            rw [run?_space space, missing, Bool.or_true, Bool.true_or, if_pos rfl,
              ih laterPlain chain.tail, List.map_nil, Bytes.takes_nil, List.map_singleton,
              Bytes.takes_trailing nonempty blank]
        | cons next later =>
            -- no white space follows white space, and a literal is not optional
            obtain ⟨nextNonempty, ⟨nextLiteral, solid⟩ | ⟨nextSpace, -⟩⟩ :=
              laterPlain next List.mem_cons_self
            · have needed : allOptional (next :: later) = false := by
                simp [allOptional, isSpace, Token.optional, reference?, nextLiteral]
              rw [run?_space space, needed, Bool.or_false, Bool.or_false, List.map_cons,
                List.map_cons, Bytes.takes_gap nonempty blank nextNonempty solid]
              split
              · next here => rw [ih laterPlain chain.tail, and_iff_right here, List.map_cons]
              · next absent => simp [absent]
            · exact absurd ⟨isSpace_iff.mpr space, isSpace_iff.mpr nextSpace⟩
                (List.isChain_cons_cons.mp chain).1

end Token

namespace Pattern

section Plain

variable {source : Bytes} {symbols : Symbols} {pattern : Pattern}

theorem run?_plain_iff (compiled : compile source symbols = .ok pattern)
    (absent : ¬ symbols.sigil <:+: source) {strict : Bool} {cursor last : Cursor}
    {captures : List Capture} :
    Token.run? strict false false pattern.tokens cursor = some (captures, last) ↔
      captures = [] ∧ Bytes.Takes source.runs cursor last := by
  obtain ⟨texts, plain⟩ := plain_of_compile compiled absent
  rw [Token.run?_eq_some_iff_takes plain (chain_of_compile compiled), texts]

theorem matchAt?_plain_iff (compiled : compile source symbols = .ok pattern)
    (absent : ¬ symbols.sigil <:+: source) {strict : Bool} {text : Bytes} {start : Nat}
    (inside : start ≤ text.length) {found : Match} :
    pattern.matchAt? strict text start = some found ↔
      ∃ taken rest, Bytes.Spells source.runs taken ∧ text.drop start = taken ++ rest ∧
        Bytes.Exhausts source.runs rest ∧ found = ⟨⟨start, taken⟩, [], rest⟩ := by
  rw [matchAt?_ofNat inside, matchFrom?, Option.map_eq_some_iff]
  constructor
  · rintro ⟨⟨captures, last⟩, ran, rfl⟩
    obtain ⟨rfl, taken, spells, whole, -, exhausts⟩ := (run?_plain_iff compiled absent).mp ran
    refine ⟨taken, last.rest, spells, whole, exhausts, ?_⟩
    dsimp only
    rw [Cursor.inside_sliceTo whole]
  · rintro ⟨taken, rest, spells, whole, exhausts, rfl⟩
    refine ⟨([], ⟨start + taken.length, rest⟩), (run?_plain_iff compiled absent).mpr
      ⟨rfl, taken, spells, whole, rfl, exhausts⟩, ?_⟩
    dsimp only
    rw [Cursor.inside_sliceTo whole]

theorem runs_uniform (compiled : compile source symbols = .ok pattern)
    (absent : ¬ symbols.sigil <:+: source) :
    ∀ run ∈ source.runs, run ≠ [] ∧ (Bytes.Solid run ∨ Bytes.Blank run) := by
  obtain ⟨texts, plain⟩ := plain_of_compile compiled absent
  rw [← texts]
  intro run member
  obtain ⟨token, listed, rfl⟩ := List.mem_map.mp member
  obtain ⟨nonempty, shape⟩ := plain token listed
  exact ⟨nonempty, shape.imp And.right And.right⟩

end Plain

/-- A pattern in which the sigil does not occur matches wherever the text begins with what
its runs spell.  The match then ends behind the last literal, or behind all of the white
space that follows it if the pattern ends in white space, and captures nothing.  So the
pattern matches the whole of its own text. -/
theorem matchAt?_plain {source : Bytes} {symbols : Symbols} {pattern : Pattern}
    (compiled : compile source symbols = .ok pattern) (absent : ¬ symbols.sigil <:+: source)
    (strict : Bool) :
    (∀ (text : Bytes) (start : Nat), start ≤ text.length →
      ((∃ found, pattern.matchAt? strict text start = some found) ↔
        ∃ taken, Bytes.Spells source.runs taken ∧ taken <+: text.drop start) ∧
      ∀ found, pattern.matchAt? strict text start = some found ↔
        ∃ taken rest, Bytes.Spells source.runs taken ∧ text.drop start = taken ++ rest ∧
          Bytes.Exhausts source.runs rest ∧ found = ⟨⟨start, taken⟩, [], rest⟩) ∧
    pattern.matchAt? strict source 0 = some ⟨⟨0, source⟩, [], []⟩ := by
  have uniform := runs_uniform compiled absent
  refine ⟨fun text start inside =>
    ⟨⟨?_, ?_⟩, fun found => matchAt?_plain_iff compiled absent inside⟩, ?_⟩
  · rintro ⟨found, matched⟩
    obtain ⟨taken, rest, spells, whole, -⟩ := (matchAt?_plain_iff compiled absent inside).mp matched
    exact ⟨taken, spells, rest, whole.symm⟩
  · rintro ⟨taken, spells, rest, whole⟩
    have filled : ∀ run ∈ source.runs, run ≠ [] := fun run member => (uniform run member).1
    have here : (Cursor.inside text start).rest = taken ++ rest := whole.symm
    obtain ⟨last, taken, spells, whole, -, exhausts⟩ := spells.exists_takes filled here
    exact ⟨_, (matchAt?_plain_iff compiled absent inside).mpr
      ⟨taken, last.rest, spells, whole, exhausts, rfl⟩⟩
  · have own : Bytes.Spells source.runs source := by
      have spells := Bytes.spells_flatten uniform
      rwa [Bytes.runs, List.flatten_splitBy] at spells
    refine (matchAt?_plain_iff compiled absent (Nat.zero_le _)).mpr
      ⟨source, [], own, by simp, ?_, rfl⟩
    rintro run - - b ⟨⟩

/-- One half of the sigil is a literal.  White space of any kind stands for the white space
of the pattern, and what follows the tab is taken to its end. -/
theorem matchAt?_plain_half_sigil :
    ∃ pattern, compile (bytes "a $  b\t") ⟨bytes "$$", bytes "\x7b", bytes "\x7d"⟩ =
        .ok pattern ∧
      pattern.matchAt? true (bytes "-a\n$ b \r,") 1 =
        some ⟨⟨1, bytes "a\n$ b \r"⟩, [], bytes ","⟩ ∧
      pattern.matchAt? true (bytes "a $  b\t") 0 = some ⟨⟨0, bytes "a $  b\t"⟩, [], []⟩ := by
  have valid : Symbols.Valid ⟨bytes "$$", bytes "\x7b", bytes "\x7d"⟩ :=
    Symbols.fault?_eq_none_iff.mp (by decide)
  obtain ⟨pattern, compiled⟩ : ∃ pattern, compile (bytes "a $  b\t")
      ⟨bytes "$$", bytes "\x7b", bytes "\x7d"⟩ = .ok pattern :=
    ⟨_, compile_eq_ok_iff.mpr ⟨valid, rfl⟩⟩
  obtain ⟨everywhere, own⟩ := matchAt?_plain compiled (by decide) true
  refine ⟨pattern, compiled, ?_, own⟩
  have last : Bytes.Spells [bytes "b", bytes "\t"] (bytes "b" ++ bytes " \r") :=
    .literal (by decide) (.trailing (by decide) (by decide))
  have middle : Bytes.Spells [bytes "$", bytes "  ", bytes "b", bytes "\t"]
      (bytes "$" ++ (bytes " " ++ (bytes "b" ++ bytes " \r"))) :=
    .literal (by decide) (.gap (by decide) (by decide) (by decide) last)
  have spelt : Bytes.Spells (bytes "a $  b\t").runs
      (bytes "a" ++ (bytes "\n" ++ (bytes "$" ++ (bytes " " ++ (bytes "b" ++ bytes " \r"))))) :=
    .literal (by decide) (.gap (by decide) (by decide) (by decide) middle)
  refine ((everywhere (bytes "-a\n$ b \r,") 1 (by decide)).2 _).mpr
    ⟨_, bytes ",", spelt, by decide, ?_, by decide⟩
  rintro _ - - _ ⟨⟩
  rfl

end Pattern

end Stencil
