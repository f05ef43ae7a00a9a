import Stencil.Declaration
import Stencil.Proofs.Block
import Stencil.Proofs.Engine

/-!
# Declarations that are left

A pass takes the declarations out of a text, and what stood around one of them
then stands side by side.  Text that declared nothing before may declare
something now: `pattern pattern{}{}{a}{b}` loses its inner declaration, which
stands for no rule, and becomes `pattern {a}{b}`.

The passes over a text end when one of them finds no rule.  This module says what
that leaves: every head of a declaration in the result lies across a seam, that
is, a place where the last pass took a declaration out.  The result declares
nothing exactly when no seam joins a head together, and is a fixed point then.
-/

namespace Stencil

namespace Bytes

theorem splitAtFirst_eq_none {needle passed behind : Bytes}
    (absent : splitAtFirst needle (passed ++ behind) = none) : ¬ needle <+: behind := by
  induction passed with
  | nil =>
      cases behind with
      | nil => simpa [splitAtFirst] using absent
      | cons b behind =>
          simp only [List.nil_append, splitAtFirst] at absent
          split at absent
          · cases absent
          next starts => rwa [List.isPrefixOf_iff_prefix] at starts
  | cons b passed ih =>
      simp only [List.cons_append, splitAtFirst] at absent
      split at absent
      · cases absent
      · exact ih (Option.map_eq_none_iff.mp absent)

/-- No occurrence of the needle begins before the one a text is split at. -/
theorem splitAtFirst_le {needle passed behind before found : Bytes}
    (split : splitAtFirst needle (passed ++ behind) = some (before, found))
    (occurs : needle <+: behind) : before.length ≤ passed.length := by
  induction passed generalizing before with
  | nil =>
      cases behind with
      | nil =>
          simp only [List.nil_append, splitAtFirst] at split
          split at split <;> cases split
          exact Nat.le_refl _
      | cons b behind =>
          rw [List.nil_append, splitAtFirst,
            if_pos (List.isPrefixOf_iff_prefix.mpr occurs)] at split
          cases split
          exact Nat.le_refl _
  | cons b passed ih =>
      simp only [List.cons_append, splitAtFirst] at split
      split at split
      · cases split
        exact Nat.zero_le _
      · obtain ⟨⟨before', found'⟩, inner, pair⟩ := Option.map_eq_some_iff.mp split
        cases pair
        exact Nat.succ_le_succ (ih inner)

theorem splitAtFirst_ne_nil {needle text before found : Bytes} (nonempty : text ≠ [])
    (split : splitAtFirst needle text = some (before, found)) : found ≠ [] := by
  rintro rfl
  obtain ⟨whole, begins⟩ := splitAtFirst_eq_some split
  obtain rfl := List.prefix_nil.mp begins
  have front : splitAtFirst [] ([] ++ text) = some (before, []) := split
  have empty := List.eq_nil_of_length_eq_zero
    (Nat.le_zero.mp (splitAtFirst_le front List.nil_prefix))
  rw [empty] at whole
  exact nonempty whole

end Bytes

namespace Declaration

/-- What a declaration begins with: the keyword, white space and an opener that
is found behind the white space. -/
structure Head (keyword : Bytes) (symbols : Symbols) (head : Bytes) : Prop where
  parts : ∃ space, head = keyword ++ (space ++ symbols.opener) ∧
    ∀ b ∈ space, Bytes.isSpace b = true
  visible : ∀ b ∈ symbols.opener.head?, Bytes.isSpace b = false

/-- A declaration begins with `head` behind `passed`.  `before` is the byte in
front of the text, if there is one. -/
structure Begins (keyword : Bytes) (symbols : Symbols) (before : Option UInt8)
    (passed head : Bytes) : Prop where
  isHead : Head keyword symbols head
  free : (passed.getLast?.or before).any Bytes.isIdent = false

/-- All the text of a piece. -/
def Piece.source : Piece → Bytes
  | .kept text => text
  | .declared declaration => declaration.text

/-- The text that was cut into the pieces. -/
def sourceOf (pieces : List Piece) : Bytes :=
  pieces.flatMap Piece.source

@[simp] theorem sourceOf_nil : sourceOf [] = [] := rfl

@[simp] theorem sourceOf_cons (piece : Piece) (pieces : List Piece) :
    sourceOf (piece :: pieces) = piece.source ++ sourceOf pieces :=
  rfl

@[simp] theorem sourceOf_append (left right : List Piece) :
    sourceOf (left ++ right) = sourceOf left ++ sourceOf right :=
  List.flatMap_append

@[simp] theorem restOf_nil : restOf [] = [] := rfl

@[simp] theorem restOf_kept (text : Bytes) (pieces : List Piece) :
    restOf (.kept text :: pieces) = text ++ restOf pieces :=
  rfl

@[simp] theorem restOf_declared (declaration : Declaration) (pieces : List Piece) :
    restOf (.declared declaration :: pieces) = restOf pieces :=
  rfl

@[simp] theorem restOf_append (left right : List Piece) :
    restOf (left ++ right) = restOf left ++ restOf right :=
  List.flatMap_append

/-- Taking a declaration out joined the head together: `first` stood in front of
it, unless that is empty, and `second` behind it. -/
def Joined (pieces : List Piece) (passed head rest : Bytes) : Prop :=
  ∃ left declaration right first second,
    pieces = left ++ .declared declaration :: right ∧
      head = first ++ second ∧ second ≠ [] ∧
      restOf left = passed ++ first ∧ restOf right = second ++ rest

section Joined

variable {pieces : List Piece} {passed head rest : Bytes}

theorem Joined.behind_kept (joined : Joined pieces passed head rest) (text : Bytes) :
    Joined (.kept text :: pieces) (text ++ passed) head rest := by
  obtain ⟨left, declaration, right, first, second, rfl, parts, more, front, back⟩ := joined
  exact ⟨.kept text :: left, declaration, right, first, second, rfl, parts, more,
    by simp [front], back⟩

theorem Joined.behind_declared (joined : Joined pieces passed head rest)
    (declaration : Declaration) :
    Joined (.declared declaration :: pieces) passed head rest := by
  obtain ⟨left, other, right, first, second, rfl, parts, more, front, back⟩ := joined
  exact ⟨.declared declaration :: left, other, right, first, second, rfl, parts, more,
    front, back⟩

theorem Joined.restOf_eq (joined : Joined pieces passed head rest) :
    restOf pieces = passed ++ (head ++ rest) := by
  obtain ⟨left, declaration, right, first, second, rfl, rfl, -, front, back⟩ := joined
  simp [front, back]

/-- What is kept in front of a seam may be divided otherwise. -/
theorem Joined.regroup {start : Bytes} {front : List Piece}
    (joined : Joined (.kept start :: pieces) passed head rest) (same : restOf front = start) :
    Joined (front ++ pieces) passed head rest := by
  obtain ⟨left, declaration, right, first, second, split, parts, more, before, behind⟩ := joined
  cases left with
  | nil => cases split
  | cons piece left =>
      obtain ⟨rfl, rfl⟩ := List.cons.inj split
      refine ⟨front ++ left, declaration, right, first, second, by simp, parts, more, ?_, behind⟩
      rw [restOf_append, same, ← before]
      rfl

/-- A head that begins in a stretch of kept text lies in the text that was cut or
across a seam. -/
theorem inside_or_joined (pieces : List Piece) {start : Bytes}
    (early : passed.length ≤ start.length)
    (whole : start ++ restOf pieces = passed ++ (head ++ rest)) :
    (∃ behind, start ++ sourceOf pieces = passed ++ (head ++ behind)) ∨
      Joined (.kept start :: pieces) passed head rest := by
  induction pieces generalizing start with
  | nil => exact .inl ⟨rest, by simpa using whole⟩
  | cons piece pieces ih =>
      cases piece with
      | kept text =>
          rw [restOf_kept, ← List.append_assoc] at whole
          rcases ih (by rw [List.length_append]; omega) whole with ⟨behind, inside⟩ | joined
          · exact .inl ⟨behind, by simpa [Piece.source] using inside⟩
          · have same : restOf [.kept start, .kept text] = start ++ text := by simp
            exact .inr (joined.regroup same)
      | declared declaration =>
          rw [restOf_declared] at whole
          obtain ⟨middle, rfl⟩ :=
            List.prefix_of_prefix_length_le ⟨_, rfl⟩ ⟨_, whole⟩ early
          rw [List.append_assoc, List.append_cancel_left_eq] at whole
          -- the head goes on behind the seam, or ends in front of it
          rcases List.append_eq_append_iff.mp whole with
            ⟨second, rfl, back⟩ | ⟨behind, rfl, -⟩
          · cases second with
            | nil =>
                exact .inl ⟨declaration.text ++ sourceOf pieces, by simp [Piece.source]⟩
            | cons b second =>
                right
                exact ⟨[.kept (passed ++ middle)], declaration, pieces, middle, b :: second, rfl,
                  rfl, List.cons_ne_nil b second, by simp, back⟩
          · exact .inl ⟨behind ++ (declaration.text ++ sourceOf pieces), by simp [Piece.source]⟩

end Joined

section Pieces

variable {keyword : Bytes} {symbols : Symbols}

theorem blockOrNothing_suffix (symbols : Symbols) (text : Bytes) :
    (blockOrNothing symbols text).2 <:+ text := by
  unfold blockOrNothing
  split
  · next block found =>
      rw [Block.read?_append found, ← List.append_assoc, ← List.append_assoc]
      exact List.suffix_append _ _
  · exact List.suffix_refl text

theorem blockOrNothing_length (opener : symbols.opener ≠ []) (closer : symbols.closer ≠ [])
    {text : Bytes} (opens : symbols.opener <+: text) :
    (blockOrNothing symbols text).2.length < text.length := by
  unfold blockOrNothing
  split
  · next block found => exact Block.read?_length found
  · next absent => exact absurd opens ((Block.read?_eq_none_iff opener closer).mp absent)

/-- What follows a declaration follows its keyword. -/
theorem blocks?_suffix {text pattern rest : Bytes} {replacement : Option Bytes}
    (found : blocks? keyword symbols text = some (pattern, replacement, rest)) :
    rest <:+ text.drop keyword.length := by
  simp only [blocks?] at found
  split at found
  · have first := (blockOrNothing_suffix symbols
      ((text.drop keyword.length).dropWhile Bytes.isSpace)).trans
        (List.dropWhile_suffix Bytes.isSpace)
    split at found
    · have second := (blockOrNothing_suffix symbols _).trans
        (List.dropWhile_suffix Bytes.isSpace (l := (blockOrNothing symbols
          ((text.drop keyword.length).dropWhile Bytes.isSpace)).2))
      cases found
      exact second.trans first
    · cases found
      exact first
  · cases found

theorem blocks?_rest (opener : symbols.opener ≠ []) (closer : symbols.closer ≠ [])
    {text pattern rest : Bytes} {replacement : Option Bytes}
    (found : blocks? keyword symbols text = some (pattern, replacement, rest)) :
    rest <:+ text ∧ rest.length < text.length := by
  refine ⟨(blocks?_suffix found).trans (List.drop_suffix _ _), ?_⟩
  simp only [blocks?] at found
  split at found
  · next opens =>
      have behind := ((List.dropWhile_suffix Bytes.isSpace).trans
        (List.drop_suffix keyword.length text)).length_le
      have shorter := blockOrNothing_length opener closer (List.isPrefixOf_iff_prefix.mp opens)
      split at found
      · have second := ((blockOrNothing_suffix symbols _).trans
          (List.dropWhile_suffix Bytes.isSpace (l := (blockOrNothing symbols
            ((text.drop keyword.length).dropWhile Bytes.isSpace)).2))).length_le
        cases found
        omega
      · cases found
        omega
  · cases found

theorem blocks?_isSome_iff (opener : symbols.opener ≠ []) {text : Bytes}
    (begins : keyword <+: text) :
    (blocks? keyword symbols text).isSome ↔
      ∃ head, Head keyword symbols head ∧ head <+: text := by
  have opens : (blocks? keyword symbols text).isSome ↔
      symbols.opener <+: (text.drop keyword.length).dropWhile Bytes.isSpace := by
    simp only [blocks?, ← List.isPrefixOf_iff_prefix]
    split
    · next found => split <;> simp [found]
    · next missing => simp [missing]
  rw [opens]
  obtain ⟨behind, rfl⟩ := begins
  rw [List.drop_left]
  constructor
  · rintro ⟨rest, found⟩
    refine ⟨keyword ++ (behind.takeWhile Bytes.isSpace ++ symbols.opener),
      ⟨⟨_, rfl, List.all_eq_true.mp List.all_takeWhile⟩, ?_⟩, rest, ?_⟩
    · intro b first
      have stops := List.head?_dropWhile_not Bytes.isSpace behind
      rw [← found, List.head?_append, Option.mem_def.mp first] at stops
      simpa using stops
    · rw [List.append_assoc, List.append_assoc, found, List.takeWhile_append_dropWhile]
  · rintro ⟨_, ⟨⟨space, rfl, blank⟩, visible⟩, rest, whole⟩
    rw [List.append_assoc, List.append_cancel_left_eq, List.append_assoc] at whole
    rw [← whole, List.dropWhile_append_of_pos blank]
    obtain ⟨b, opener', shape⟩ := List.exists_cons_of_ne_nil opener
    have stops := visible b (by rw [shape]; rfl)
    rw [shape, List.cons_append, List.dropWhile_cons_of_neg (by simp [stops])]
    exact List.prefix_append (b :: opener') rest

theorem sourceOf_piecesFrom (valid : symbols.Valid) (before : Option UInt8) (text : Bytes) :
    sourceOf (piecesFrom keyword symbols before text) = text := by
  fun_induction piecesFrom keyword symbols before text with
  | case1 => rfl
  | case2 => simp [Piece.source]
  | case3 before text _ gap found split =>
      rename_i ih
      rw [(Bytes.splitAtFirst_eq_some split).1, sourceOf_cons, ih, Piece.source,
        List.append_assoc, ← List.drop_one, List.take_append_drop]
  | case4 before text _ gap found split _ previous pattern replacement rest read own shorter =>
      rename_i ih
      split at read
      · cases read
      obtain ⟨⟨taken, whole⟩, -⟩ := blocks?_rest valid.opener valid.closer read
      rw [(Bytes.splitAtFirst_eq_some split).1, sourceOf_cons, sourceOf_cons, ih]
      simp [own, Piece.source, ← whole]
  | case5 => simp [Piece.source]

theorem text_ne_nil_of_declared (valid : symbols.Valid) (before : Option UInt8) (text : Bytes)
    {declaration : Declaration}
    (member : .declared declaration ∈ piecesFrom keyword symbols before text) :
    declaration.text ≠ [] := by
  fun_induction piecesFrom keyword symbols before text with
  | case1 => cases member
  | case2 => simp at member
  | case3 =>
      rename_i ih
      rw [List.mem_cons, or_iff_right Piece.noConfusion] at member
      exact ih member
  | case4 before text _ gap found split _ previous pattern replacement rest read own shorter =>
      rename_i ih
      rw [List.mem_cons, or_iff_right Piece.noConfusion, List.mem_cons] at member
      rcases member with here | later
      · split at read
        · cases read
        have taken := (blocks?_rest valid.opener valid.closer read).2
        obtain rfl := Piece.declared.inj here
        rw [Ne, List.take_eq_nil_iff, ← List.length_eq_zero_iff]
        omega
      · exact ih later
  | case5 => simp at member

theorem length_restOf_le (pieces : List Piece) :
    (restOf pieces).length ≤ (sourceOf pieces).length := by
  induction pieces with
  | nil => exact Nat.le_refl _
  | cons piece pieces ih =>
      cases piece with
      | kept text => simpa [Piece.source] using ih
      | declared declaration =>
          rw [restOf_declared, sourceOf_cons, List.length_append]
          omega

theorem length_restOf_lt {pieces : List Piece} {declaration : Declaration}
    (member : .declared declaration ∈ pieces) (written : declaration.text ≠ []) :
    (restOf pieces).length < (sourceOf pieces).length := by
  obtain ⟨left, right, rfl⟩ := List.append_of_mem member
  have before := length_restOf_le left
  have behind := length_restOf_le right
  have taken := List.length_pos_iff.mpr written
  simp only [restOf_append, restOf_declared, sourceOf_append, sourceOf_cons, Piece.source,
    List.length_append]
  omega

theorem Head.keyword_prefix {head : Bytes} (isHead : Head keyword symbols head) (rest : Bytes) :
    keyword <+: head ++ rest := by
  obtain ⟨space, rfl, -⟩ := isHead.parts
  rw [List.append_assoc]
  exact List.prefix_append _ _

theorem Head.ne_nil (nonempty : keyword ≠ []) {head : Bytes} (isHead : Head keyword symbols head) :
    head ≠ [] := by
  obtain ⟨space, rfl, -⟩ := isHead.parts
  simp [nonempty]

/-- No head begins in the text up to the first keyword, and none begins with that
keyword when it is not read as a declaration. -/
theorem not_begins_before (valid : symbols.Valid) {before : Option UInt8}
    {gap found passed head rest : Bytes}
    (split : Bytes.splitAtFirst keyword (passed ++ (head ++ rest)) = some (gap, found))
    (undeclared : (if (gap.getLast?.or before).any Bytes.isIdent then none
      else blocks? keyword symbols found) = none)
    (early : passed.length ≤ gap.length) :
    ¬ Begins keyword symbols before passed head := by
  rintro ⟨isHead, free⟩
  obtain ⟨cut, keywordFirst⟩ := Bytes.splitAtFirst_eq_some split
  have late := Bytes.splitAtFirst_le split (isHead.keyword_prefix rest)
  obtain ⟨rfl, rfl⟩ := List.append_inj cut (by omega)
  rw [free, if_neg Bool.false_ne_true] at undeclared
  have read := (blocks?_isSome_iff valid.opener keywordFirst).mpr
    ⟨head, isHead, List.prefix_append head rest⟩
  rw [undeclared] at read
  cases read

/-- Every head in what remains of a text lies across a seam. -/
theorem joined_of_begins (valid : symbols.Valid) (nonempty : keyword ≠ [])
    (before : Option UInt8) (text : Bytes) {passed head rest : Bytes}
    (whole : restOf (piecesFrom keyword symbols before text) = passed ++ (head ++ rest))
    (begins : Begins keyword symbols before passed head) :
    Joined (piecesFrom keyword symbols before text) passed head rest := by
  fun_induction piecesFrom keyword symbols before text generalizing passed with
  | case1 => simp [begins.isHead.ne_nil nonempty] at whole
  | case2 before text _ absent =>
      rw [restOf_kept, restOf_nil, List.append_nil] at whole
      subst whole
      exact absurd (begins.isHead.keyword_prefix rest) (Bytes.splitAtFirst_eq_none absent)
  | case3 before text _ gap found split _ previous undeclared =>
      rename_i ih
      obtain ⟨cut, keywordFirst⟩ := Bytes.splitAtFirst_eq_some split
      cases found with
      | nil => exact absurd (List.prefix_nil.mp keywordFirst) nonempty
      | cons b tail =>
          rw [restOf_kept] at whole
          -- up to the keyword that was passed over, a head in the text itself would have been read
          by_cases early : passed.length ≤ gap.length
          · rcases inside_or_joined _ (by simp; omega) whole with ⟨behind, inside⟩ | joined
            · rw [sourceOf_piecesFrom valid] at inside
              have same : text = passed ++ (head ++ behind) := by rw [cut, ← inside]; simp
              rw [same] at split
              exact absurd begins (not_begins_before valid split undeclared early)
            · exact joined
          · obtain ⟨later, rfl⟩ := List.prefix_of_prefix_length_le ⟨_, whole⟩
              ⟨head ++ rest, rfl⟩ (by simp; omega)
            have behind := List.append_cancel_left (whole.trans (List.append_assoc _ _ _))
            refine (ih behind ⟨begins.isHead, ?_⟩).behind_kept _
            simpa [List.getLast?_append, List.getLast?_cons] using begins.free
  | case4 before text _ gap found split _ previous pattern replacement behind read own shorter =>
      rename_i ih
      obtain ⟨cut, -⟩ := Bytes.splitAtFirst_eq_some split
      rw [restOf_kept] at whole
      -- a head that begins in the gap crosses the seam: the keyword was the first in the text
      by_cases early : passed.length < gap.length
      · rcases inside_or_joined _ (Nat.le_of_lt early) whole with ⟨after, inside⟩ | joined
        · split at read
          · cases read
          obtain ⟨⟨taken, rfl⟩, -⟩ := blocks?_rest valid.opener valid.closer read
          have same : text = passed ++ (head ++ after) := by
            rw [cut, ← inside, sourceOf_cons, sourceOf_piecesFrom valid]
            simp [own, Piece.source]
          rw [same] at split
          have late := Bytes.splitAtFirst_le split (begins.isHead.keyword_prefix after)
          omega
        · exact joined
      · obtain ⟨later, rfl⟩ := List.prefix_of_prefix_length_le ⟨_, whole⟩
          ⟨head ++ rest, rfl⟩ (by omega)
        rw [List.append_assoc, List.append_cancel_left_eq, restOf_declared] at whole
        cases later with
        | nil =>
            exact ⟨[.kept gap], _, _, [], head, rfl, rfl, begins.isHead.ne_nil nonempty,
              by simp, whole⟩
        | cons b later =>
            refine ((ih whole ⟨begins.isHead, ?_⟩).behind_declared _).behind_kept _
            simpa [List.getLast?_append, List.getLast?_cons] using begins.free
  | case5 before text _ gap found split _ previous pattern replacement behind read =>
      rename_i unchanged
      split at read
      · cases read
      have shorter := (blocks?_rest valid.opener valid.closer read).2
      rw [(Bytes.splitAtFirst_eq_some split).1, List.length_append] at unchanged
      omega

/-- No head begins in a text that is kept as a whole. -/
theorem not_begins_of_restOf (valid : symbols.Valid) (nonempty : keyword ≠ [])
    {text passed head rest : Bytes} (kept : restOf (pieces keyword symbols text) = text)
    (whole : text = passed ++ (head ++ rest)) : ¬ Begins keyword symbols none passed head := by
  intro begins
  obtain ⟨left, declaration, right, -, -, split, -⟩ :=
    joined_of_begins valid nonempty none text (kept.trans whole) begins
  have member : .declared declaration ∈ pieces keyword symbols text := by
    rw [pieces, split]
    exact List.mem_append_right _ List.mem_cons_self
  have shorter := length_restOf_lt member (text_ne_nil_of_declared valid none text member)
  rw [kept, pieces, sourceOf_piecesFrom valid] at shorter
  exact Nat.lt_irrefl _ shorter

/-- A text in which no head begins is kept as a whole. -/
theorem not_declared_of_not_begins (valid : symbols.Valid) (nonempty : keyword ≠ [])
    (before : Option UInt8) (text : Bytes)
    (free : ∀ passed head rest, text = passed ++ (head ++ rest) →
      ¬ Begins keyword symbols before passed head) (declaration : Declaration) :
    .declared declaration ∉ piecesFrom keyword symbols before text := by
  fun_induction piecesFrom keyword symbols before text with
  | case1 => simp
  | case2 => simp
  | case3 before text _ gap found split =>
      rename_i ih
      obtain ⟨cut, keywordFirst⟩ := Bytes.splitAtFirst_eq_some split
      cases found with
      | nil => exact absurd (List.prefix_nil.mp keywordFirst) nonempty
      | cons b tail =>
          refine List.not_mem_cons_of_ne_of_not_mem Piece.noConfusion (ih ?_)
          intro passed head rest behind begins
          rw [List.tail_cons] at behind
          refine free (gap ++ b :: passed) head rest (by simp [cut, behind]) ⟨begins.isHead, ?_⟩
          simpa [List.getLast?_append, List.getLast?_cons] using begins.free
  | case4 before text _ gap found split _ previous pattern replacement behind read own shorter =>
      obtain ⟨cut, keywordFirst⟩ := Bytes.splitAtFirst_eq_some split
      split at read
      · cases read
      next apart =>
        obtain ⟨head, isHead, rest, rfl⟩ :=
          (blocks?_isSome_iff valid.opener keywordFirst).mp (by rw [read]; rfl)
        exact absurd ⟨isHead, by simpa using apart⟩ (free gap head rest cut)
  | case5 => simp

theorem restOf_eq_sourceOf {pieces : List Piece}
    (free : ∀ declaration, .declared declaration ∉ pieces) : restOf pieces = sourceOf pieces := by
  induction pieces with
  | nil => rfl
  | cons piece pieces ih =>
      simp only [List.mem_cons, not_or] at free
      cases piece with
      | kept text => rw [restOf_kept, sourceOf_cons, ih fun d => (free d).2, Piece.source]
      | declared declaration => exact absurd rfl (free declaration).1

theorem collect_of_not_declared (valid : symbols.Valid) {text : Bytes}
    (free : ∀ declaration, .declared declaration ∉ pieces keyword symbols text) :
    collect keyword symbols text = ([], text) := by
  have rules : rulesOf (pieces keyword symbols text) = [] := by
    simp only [rulesOf, List.mapIdx_eq_nil_iff, List.filterMap_eq_nil_iff]
    intro piece member
    cases piece with
    | kept stretch => rfl
    | declared declaration => exact absurd member (free declaration)
  rw [collect, rules, restOf_eq_sourceOf free, pieces, sourceOf_piecesFrom valid]

/-- A declaration among the pieces of a text that declares no rule stands for
nothing. -/
theorem meaning?_of_no_rules {pieces : List Piece} (none : rulesOf pieces = [])
    {declaration : Declaration} (member : .declared declaration ∈ pieces) :
    declaration.meaning? = .none := by
  simp only [rulesOf, List.mapIdx_eq_nil_iff, List.filterMap_eq_nil_iff] at none
  exact none _ member

end Pieces

/-- Passes that each found rules and applied them lead from one text to another. -/
inductive Passes (keyword : Bytes) (options : Options) : Nat → Bytes → Bytes → Prop where
  | done (text : Bytes) : Passes keyword options 0 text text
  | pass {count : Nat} {text rest last : Bytes} {rules : List Rule} {engine : Engine}
      (collected : collect keyword options.symbols text = (rules, rest)) (found : rules ≠ [])
      (compiled : Engine.compile rules options = .ok engine)
      (later : Passes keyword options count (engine.process rest) last) :
      Passes keyword options (count + 1) text last

/-- Taking declarations out of a text joined no head together. -/
def Apart (keyword : Bytes) (symbols : Symbols) (text : Bytes) : Prop :=
  ∀ passed head rest, Begins keyword symbols none passed head →
    ¬ Joined (pieces keyword symbols text) passed head rest

/-- A text that declares no rule ends the passes, and `output` remains of it. -/
structure Settles (keyword : Bytes) (symbols : Symbols) (text output : Bytes) : Prop where
  collected : collect keyword symbols text = ([], output)
  /-- What was taken out stood for no rule. -/
  meaningless : ∀ declaration, .declared declaration ∈ pieces keyword symbols text →
    declaration.meaning? = none
  /-- What is declared now was joined together. -/
  joined : ∀ passed head rest, output = passed ++ (head ++ rest) →
    Begins keyword symbols none passed head →
    Joined (pieces keyword symbols text) passed head rest
  /-- Nothing is declared just when nothing was joined together. -/
  fixed : collect keyword symbols output = ([], output) ↔ Apart keyword symbols text

theorem settles_of_collect {keyword : Bytes} {symbols : Symbols} (valid : symbols.Valid)
    (nonempty : keyword ≠ []) {text output : Bytes}
    (collected : collect keyword symbols text = ([], output)) :
    Settles keyword symbols text output := by
  obtain ⟨noRules, rest⟩ := Prod.mk.inj collected
  have joined : ∀ passed head behind, output = passed ++ (head ++ behind) →
      Begins keyword symbols none passed head →
      Joined (pieces keyword symbols text) passed head behind :=
    fun _ _ _ whole => joined_of_begins valid nonempty none text (rest.trans whole)
  refine ⟨collected, fun _ => meaning?_of_no_rules noRules, joined, ?_, ?_⟩
  · intro settled passed head behind begins seam
    have whole := rest.symm.trans seam.restOf_eq
    exact not_begins_of_restOf valid nonempty (Prod.mk.inj settled).2 whole begins
  · intro apart
    apply collect_of_not_declared valid
    apply not_declared_of_not_begins valid nonempty none
    intro passed head behind whole begins
    exact apart passed head behind begins (joined passed head behind whole begins)

end Declaration

open Declaration

/-- A run uses up its passes, or ends at a text that declares no rule. -/
theorem inlinePasses_ends (keyword : Bytes) {options : Options} (usable : options.symbols.Valid)
    (limit : Nat) (text : Bytes) :
    ∃ output, inlinePasses keyword options limit text = .ok output ∧
      (Passes keyword options limit text output ∨
        ∃ count last, count < limit ∧ Passes keyword options count text last ∧
          collect keyword options.symbols last = ([], output)) := by
  induction limit generalizing text with
  | zero => exact ⟨text, rfl, .inl (.done text)⟩
  | succ limit ih =>
      obtain ⟨rules, rest, collected⟩ : ∃ rules rest,
          collect keyword options.symbols text = (rules, rest) := ⟨_, _, rfl⟩
      cases rules with
      | nil =>
          exact ⟨rest, by simp [inlinePasses, collected],
            .inr ⟨0, text, Nat.succ_pos limit, .done text, collected⟩⟩
      | cons rule rules =>
          have normalized : options.normalized.symbols.Valid := by
            rwa [Options.normalized, usable.orStandard_eq]
          obtain ⟨engine, compiled⟩ := Engine.exists_compile normalized (rule :: rules)
          obtain ⟨output, returned, ended⟩ := ih (engine.process rest)
          refine ⟨output, ?_, ?_⟩
          · simp only [inlinePasses, collected, compiled]
            exact returned
          · have found := List.cons_ne_nil rule rules
            rcases ended with used | ⟨count, last, few, passed, nothing⟩
            · exact .inl (.pass collected found compiled used)
            · exact .inr ⟨count + 1, last, Nat.succ_lt_succ few,
                .pass collected found compiled passed, nothing⟩

theorem InlineOptions.normalized_keyword_ne_nil (inline : InlineOptions) :
    inline.normalized.keyword ≠ [] := by
  unfold normalized
  dsimp only
  split
  · decide
  · next chosen => simpa using chosen

theorem InlineOptions.normalized_passes_pos (inline : InlineOptions) :
    0 < inline.normalized.passes.toNat := by
  unfold normalized standardPasses
  dsimp only
  split <;> omega

/-- The first pass is the last when it finds no rule. -/
theorem processInline_of_collect {inline : InlineOptions}
    (usable : inline.normalized.options.symbols.Valid) {text rest : Bytes}
    (nothing : collect inline.normalized.keyword inline.normalized.options.symbols text =
      ([], rest)) :
    processInline text inline = .ok rest := by
  obtain ⟨limit, counted⟩ := Nat.exists_eq_succ_of_ne_zero
    (Nat.ne_of_gt inline.normalized_passes_pos)
  simp [processInline, Symbols.fault?_eq_none_iff.mpr usable, counted, inlinePasses, nothing]

/-- A run over a text that declares its own rules always returns.  Unless it uses
up its passes, every declaration left in the result was joined together when the
last ones, which stood for no rule, were taken out.  The result declares nothing
exactly when none was, and then running again does not change it. -/
theorem processInline_settles (text : Bytes) (inline : InlineOptions) {options : Options}
    {keyword : Bytes} {limit : Int} (chosen : inline.normalized = ⟨options, keyword, limit⟩)
    (usable : options.symbols.Valid) :
    ∃ output, processInline text inline = .ok output ∧
      (Passes keyword options limit.toNat text output ∨
        ∃ count last, count < limit.toNat ∧ Passes keyword options count text last ∧
          Settles keyword options.symbols last output ∧
          (Apart keyword options.symbols last → processInline output inline = .ok output)) := by
  obtain ⟨output, returned, ended⟩ := inlinePasses_ends keyword usable limit.toNat text
  refine ⟨output, ?_, ?_⟩
  · rw [← returned]
    simp [processInline, chosen, Symbols.fault?_eq_none_iff.mpr usable]
  refine ended.imp_right ?_
  rintro ⟨count, last, few, passed, nothing⟩
  have nonempty := inline.normalized_keyword_ne_nil
  rw [chosen] at nonempty
  have settles := settles_of_collect usable nonempty nothing
  refine ⟨count, last, few, passed, settles, fun apart => ?_⟩
  have fixed := settles.fixed.mpr apart
  exact processInline_of_collect (by rwa [chosen]) (by rwa [chosen])

/-- The run over `pattern pattern{}{}{a}{b} a` ends within the standard limit. -/
theorem processInline_settles_nested :
    ∃ output, processInline (bytes "pattern pattern\x7b\x7d\x7b\x7d\x7ba\x7d\x7bb\x7d a") {} =
        .ok output ∧
      (Passes InlineOptions.standardKeyword { symbols := .standard } 512
          (bytes "pattern pattern\x7b\x7d\x7b\x7d\x7ba\x7d\x7bb\x7d a") output ∨
        ∃ count last, count < 512 ∧
          Passes InlineOptions.standardKeyword { symbols := .standard } count
            (bytes "pattern pattern\x7b\x7d\x7b\x7d\x7ba\x7d\x7bb\x7d a") last ∧
          Settles InlineOptions.standardKeyword .standard last output ∧
          (Apart InlineOptions.standardKeyword .standard last →
            processInline output {} = .ok output)) :=
  processInline_settles _ {} rfl (Symbols.fault?_eq_none_iff.mp (by decide))

/-- Its result still declares a rule, so the first pass ended the run too soon. -/
theorem processInline_leaves_declaration :
    processInline (bytes "pattern pattern\x7b\x7d\x7b\x7d\x7ba\x7d\x7bb\x7d a") {} =
        .ok (bytes "pattern \x7ba\x7d\x7bb\x7d a") ∧
      collect InlineOptions.standardKeyword .standard
          (bytes "pattern pattern\x7b\x7d\x7b\x7d\x7ba\x7d\x7bb\x7d a") =
        ([], bytes "pattern \x7ba\x7d\x7bb\x7d a") ∧
      collect InlineOptions.standardKeyword .standard (bytes "pattern \x7ba\x7d\x7bb\x7d a") =
        ([⟨bytes "inline#0", bytes "a", bytes "b"⟩], bytes " a") := by
  have nothing : collect InlineOptions.standardKeyword .standard
      (bytes "pattern pattern\x7b\x7d\x7b\x7d\x7ba\x7d\x7bb\x7d a") =
        ([], bytes "pattern \x7ba\x7d\x7bb\x7d a") := by
    decide +kernel
  exact ⟨processInline_of_collect (Symbols.fault?_eq_none_iff.mp (by decide)) nothing, nothing,
    by decide +kernel⟩

end Stencil
