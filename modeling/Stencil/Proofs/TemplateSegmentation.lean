import Mathlib.Data.List.Forall2
import Stencil.Proofs.Block
import Stencil.Proofs.Cursor
import Stencil.Template

/-!
# How a template is read

A template is cut at its sigils: plain text up to the leftmost sigil, then that sigil
with the longest name behind it, and so on with what follows.  There is exactly one
such cutting, and it is made without looking at any match.  An expansion puts a value
in the place of each reference and copies the rest, so a value is never read as
template text, whatever it contains.
-/

namespace Stencil.Template

/-- The text a piece was cut from. -/
def Piece.source (sigil : Bytes) : Piece → Bytes
  | .text plain => plain
  | .reference name => sigil ++ name

/-- No sigil begins in `plain`, given the text behind it: a sigil may end there. -/
def Unmarked (sigil plain behind : Bytes) : Prop :=
  ∀ place, place < plain.length → ¬ sigil <+: (plain ++ behind).drop place

/-- Plain text in front of other pieces; empty text is no piece. -/
def withText (plain : Bytes) (pieces : List Piece) : List Piece :=
  if plain = [] then pieces else .text plain :: pieces

/-- The pieces are cut from the template from left to right, each reference at the
leftmost sigil and with the longest name. -/
inductive Segments (sigil : Bytes) : Bytes → List Piece → Prop where
  | last {plain : Bytes} : Unmarked sigil plain [] → Segments sigil plain (withText plain [])
  | reference {plain name rest : Bytes} {later : List Piece} :
      Unmarked sigil plain (sigil ++ (name ++ rest)) →
      (∀ b ∈ name, Bytes.isIdent b = true) → (∀ b ∈ rest.head?, Bytes.isIdent b = false) →
      Segments sigil rest later →
      Segments sigil (plain ++ (sigil ++ (name ++ rest)))
        (withText plain (.reference name :: later))

/-- What stands for a piece in an expansion: plain text for itself, a reference for the
value of the first capture of its name, or for itself when there is none. -/
inductive Stands (sigil : Bytes) (found : Match) : Piece → Bytes → Prop where
  | text (plain : Bytes) : Stands sigil found (.text plain) plain
  | captured {before after : List Capture} {capture : Capture} :
      found.captures = before ++ capture :: after →
      (∀ earlier ∈ before, earlier.name ≠ capture.name) →
      Stands sigil found (.reference capture.name) capture.value.text
  | unknown {name : Bytes} :
      (∀ capture ∈ found.captures, capture.name ≠ name) →
      Stands sigil found (.reference name) (sigil ++ name)

section Cutting

variable {sigil : Bytes}

theorem flatMap_withText {read : Piece → Bytes} (same : ∀ text, read (.text text) = text)
    (plain : Bytes) (pieces : List Piece) :
    (withText plain pieces).flatMap read = plain ++ pieces.flatMap read := by
  unfold withText
  split
  · next empty => rw [empty, List.nil_append]
  · rw [List.flatMap_cons, same]

theorem Segments.source_eq {template : Bytes} {pieces : List Piece}
    (segments : Segments sigil template pieces) :
    pieces.flatMap (·.source sigil) = template := by
  have same : ∀ text, Piece.source sigil (.text text) = text := fun _ => rfl
  induction segments with
  | last _ => simp [flatMap_withText same]
  | @reference plain name rest later _ _ _ _ ih =>
      rw [flatMap_withText same, List.flatMap_cons, ih, Piece.source, List.append_assoc]

/-- Plain text ends at the leftmost sigil. -/
theorem Unmarked.length_le {plain behind other rest : Bytes}
    (unmarked : Unmarked sigil plain behind) (begins : sigil <+: rest)
    (same : plain ++ behind = other ++ rest) : plain.length ≤ other.length := by
  apply Nat.le_of_not_lt
  intro longer
  apply unmarked other.length longer
  rwa [same, List.drop_left]

theorem Unmarked.not_append (nonempty : sigil ≠ []) {plain rest : Bytes} :
    ¬ Unmarked sigil (plain ++ (sigil ++ rest)) [] := by
  intro unmarked
  have positive := List.length_pos_iff.mpr nonempty
  refine unmarked plain.length (by simp; omega) ?_
  rw [List.append_nil, List.drop_left]
  exact List.prefix_append _ _

theorem Segments.unique (nonempty : sigil ≠ []) {template : Bytes} {pieces others : List Piece}
    (segments : Segments sigil template pieces) (again : Segments sigil template others) :
    pieces = others := by
  induction segments generalizing others with
  | @last plain unmarked =>
      generalize whole : plain = template at again
      cases again with
      | last _ => rfl
      | reference _ _ _ _ =>
          subst whole
          exact absurd unmarked (Unmarked.not_append nonempty)
  | @reference plain name rest later unmarked ident ends _ ih =>
      generalize whole : plain ++ (sigil ++ (name ++ rest)) = template at again
      cases again with
      | last other =>
          subst whole
          exact absurd other (Unmarked.not_append nonempty)
      | reference other otherIdent otherEnds others =>
          have first := unmarked.length_le (List.prefix_append _ _) whole
          have second := other.length_le (List.prefix_append _ _) whole.symm
          obtain ⟨rfl, behind⟩ := List.append_inj whole (Nat.le_antisymm first second)
          have named := Bytes.span_append ident ends
          rw [List.append_cancel_left behind] at named
          obtain ⟨name, tail⟩ := Bytes.span_append otherIdent otherEnds
          obtain rfl := named.1.symm.trans name
          obtain rfl := named.2.symm.trans tail
          rw [ih others]

theorem Unmarked.cons {b : UInt8} {plain behind : Bytes} (unmarked : Unmarked sigil plain behind)
    (free : ¬ sigil <+: b :: (plain ++ behind)) : Unmarked sigil (b :: plain) behind := by
  intro place inside
  cases place with
  | zero => exact free
  | succ place => exact unmarked place (Nat.lt_of_succ_lt_succ inside)

/-- A byte at which no sigil begins joins the plain text behind it. -/
theorem Segments.cons {b : UInt8} {tail : Bytes} {pieces : List Piece}
    (segments : Segments sigil tail pieces) (free : ¬ sigil <+: b :: tail) :
    ∃ plain later, pieces = withText plain later ∧
      (∀ text others, later ≠ .text text :: others) ∧
      Segments sigil (b :: tail) (.text (b :: plain) :: later) := by
  cases segments with
  | last unmarked =>
      refine ⟨tail, [], rfl, by simp, ?_⟩
      exact .last (unmarked.cons (by simpa using free))
  | @reference plain name rest later unmarked ident ends segments =>
      have joined := Segments.reference (unmarked.cons free) ident ends segments
      exact ⟨plain, .reference name :: later, rfl, by simp, joined⟩

theorem pieces_cons {b : UInt8} {tail plain : Bytes} {later : List Piece}
    (free : ¬ sigil.isPrefixOf (b :: tail)) (split : pieces sigil tail = withText plain later)
    (bare : ∀ text others, later ≠ .text text :: others) :
    pieces sigil (b :: tail) = .text (b :: plain) :: later := by
  rw [pieces, if_neg free, split]
  cases plain with
  | cons _ _ => rfl
  | nil =>
      rcases later with _ | ⟨text | name, later⟩
      · rfl
      · exact absurd rfl (bare text later)
      · rfl

theorem segments_pieces (nonempty : sigil ≠ []) (template : Bytes) :
    Segments sigil template (pieces sigil template) := by
  induction template using pieces.induct sigil with
  | case1 =>
      rw [pieces]
      exact .last (by simp [Unmarked])
  | case2 b tail begins behind ih =>
      rw [pieces, if_pos begins]
      have ident : ∀ b ∈ behind.takeWhile Bytes.isIdent, Bytes.isIdent b = true :=
        fun b member => List.all_eq_true.mp List.all_takeWhile b member
      have ends : ∀ b ∈ (behind.dropWhile Bytes.isIdent).head?, Bytes.isIdent b = false := by
        intro b first
        have stops := List.head?_dropWhile_not Bytes.isIdent behind
        simpa [Option.mem_def.mp first] using stops
      have front : Unmarked sigil [] (sigil ++ (behind.takeWhile Bytes.isIdent ++
          behind.dropWhile Bytes.isIdent)) := by
        simp [Unmarked]
      have cut := Segments.reference front ident ends ih
      rw [List.takeWhile_append_dropWhile, ← cons_eq_append_drop nonempty begins] at cut
      exact cut
  | case3 b tail free _ _ _ ih | case4 b tail free _ ih =>
      obtain ⟨plain, later, split, bare, joined⟩ :=
        ih.cons (mt List.isPrefixOf_iff_prefix.mpr free)
      rw [pieces_cons free split bare]
      exact joined

end Cutting

section Values

variable {sigil : Bytes} {found : Match}

theorem stands_expand (piece : Piece) : Stands sigil found piece (piece.expand sigil found) := by
  cases piece with
  | text plain => exact .text plain
  | reference name =>
      simp only [Piece.expand, Match.lookup?, Match.capture?]
      cases looked : found.captures.find? fun capture => capture.name == name with
      | none =>
          apply Stands.unknown
          simpa using looked
      | some capture =>
          obtain ⟨named, before, after, split, earlier⟩ := List.find?_eq_some_iff_append.mp looked
          obtain rfl := eq_of_beq named
          exact .captured split (by simpa using earlier)

theorem forall₂_stands (pieces : List Piece) :
    List.Forall₂ (Stands sigil found) pieces (pieces.map (·.expand sigil found)) := by
  induction pieces with
  | nil => exact .nil
  | cons piece pieces ih => exact .cons (stands_expand piece) ih

theorem expand_eq (nonempty : sigil ≠ []) (template : Bytes) :
    expand sigil template found =
      ((pieces sigil template).map (·.expand sigil found)).flatten := by
  rw [expand, if_neg (by simpa using nonempty), List.flatMap_def]

theorem Piece.expand_eq_source {piece : Piece}
    (unknown : ∀ name, piece = .reference name → ∀ capture ∈ found.captures,
      capture.name ≠ name) :
    piece.expand sigil found = piece.source sigil := by
  cases piece with
  | text plain => rfl
  | reference name =>
      have absent : found.lookup? name = none := by
        simpa [Match.lookup?, Match.capture?] using unknown name rfl
      rw [Piece.expand, absent]
      rfl

end Values

/-- A template is cut into plain text and references in exactly one way, without
regard to the match.  Every expansion copies the plain text and puts a value for each
reference, the value of the first capture of its name or the reference itself.  So
values are not read again, and a template that names no capture stays as it is. -/
theorem expand_segments {sigil : Bytes} (nonempty : sigil ≠ []) (template : Bytes) :
    ∃ pieces, Segments sigil template pieces ∧
      (∀ others, Segments sigil template others → others = pieces) ∧
      pieces.flatMap (·.source sigil) = template ∧
      ∀ found : Match,
        (∃ values, List.Forall₂ (Stands sigil found) pieces values ∧
          expand sigil template found = values.flatten) ∧
        ((∀ name, .reference name ∈ pieces → ∀ capture ∈ found.captures,
            capture.name ≠ name) →
          expand sigil template found = template) := by
  have segments := segments_pieces nonempty template
  refine ⟨pieces sigil template, segments, fun others again => again.unique nonempty segments,
    segments.source_eq, fun found => ⟨⟨_, forall₂_stands _, expand_eq nonempty template⟩, ?_⟩⟩
  intro unknown
  calc
    expand sigil template found
        = ((pieces sigil template).map (·.expand sigil found)).flatten :=
      expand_eq nonempty template
    _ = ((pieces sigil template).map (·.source sigil)).flatten := by
      congr 1
      apply List.map_congr_left
      intro piece member
      apply Piece.expand_eq_source
      rintro name rfl
      exact unknown name member
    _ = template := segments.source_eq

/-- The sigil `aa` overlaps itself and the names, and the value contains both. -/
theorem expand_segments_overlapping :
    bytes "aa" ≠ [] ∧
      ∃ pieces, Segments (bytes "aa") (bytes "baaab aa") pieces ∧
        (∃ values,
          List.Forall₂ (Stands (bytes "aa")
            ⟨⟨0, []⟩, [⟨bytes "ab", ⟨0, bytes "aaab aa"⟩, none⟩], []⟩) pieces values ∧
          expand (bytes "aa") (bytes "baaab aa")
            ⟨⟨0, []⟩, [⟨bytes "ab", ⟨0, bytes "aaab aa"⟩, none⟩], []⟩ = values.flatten) ∧
        expand (bytes "aa") (bytes "baaab aa")
          ⟨⟨0, []⟩, [⟨bytes "ab", ⟨0, bytes "aaab aa"⟩, none⟩], []⟩ = bytes "baaab aa aa" := by
  have nonempty : bytes "aa" ≠ [] := by decide
  obtain ⟨pieces, segments, -, -, expands⟩ := expand_segments nonempty (bytes "baaab aa")
  exact ⟨nonempty, pieces, segments, (expands _).1, by decide +kernel⟩

end Stencil.Template
