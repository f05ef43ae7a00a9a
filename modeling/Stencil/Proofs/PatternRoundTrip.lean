import Mathlib.Data.List.Chain
import Stencil.Proofs.Cursor
import Stencil.Proofs.Tokens

/-!
# Reading a written pattern

An item is what one token of a pattern says, and `Item.render` is its spelling
with the standard marks.  There is no way to quote a mark, so neighbouring items
can run into each other: a name goes on with the text behind it, and a bare sigil
doubles the one of a block.  `Item.Apart` excludes these cases.  Items that are
kept apart are read back one by one, because the text behind an item never extends
it (`Item.EndsBefore`).
-/

namespace Stencil.Pattern

/-- What a token says.  The delimiters are those written in its groups. -/
inductive Item where
  | literal (text : Bytes)
  | space (text : Bytes)
  | variable (name : Bytes) (optional : Bool)
  | block (opener closer name : Bytes) (optional : Bool)
  | blocks (opener closer name : Bytes) (optional : Bool)
  deriving DecidableEq

/-- A delimiter group. -/
def group (inside : Bytes) : Bytes :=
  byte '\x7b' :: (inside ++ [byte '\x7d'])

/-- A name, with a question mark if it is optional. -/
def named (name : Bytes) (optional : Bool) : Bytes :=
  name ++ if optional then [byte '?'] else []

namespace Item

/-- How an item is written. -/
def render : Item → Bytes
  | .literal text | .space text => text
  | .variable name optional => byte '$' :: named name optional
  | .block opener closer name optional =>
      byte '$' :: (group opener ++ (group closer ++ named name optional))
  | .blocks opener closer name optional =>
      byte '$' :: byte '$' :: (group opener ++ (group closer ++ named name optional))

/-- Every part of the item can be written. -/
def WellFormed : Item → Prop
  | .literal text => text ≠ [] ∧ ∀ b ∈ text, Bytes.isSpace b = false ∧ b ≠ byte '$'
  | .space text => text ≠ [] ∧ ∀ b ∈ text, Bytes.isSpace b = true
  | .variable name _ => ∀ b ∈ name, Bytes.isIdent b = true
  | .block opener closer name _ | .blocks opener closer name _ =>
      byte '\x7d' ∉ opener ∧ byte '\x7d' ∉ closer ∧ ∀ b ∈ name, Bytes.isIdent b = true

def isLiteral : Item → Bool
  | .literal _ => true
  | _ => false

def isSpace : Item → Bool
  | .space _ => true
  | _ => false

/-- The item is a reference without a question mark. -/
def isOpen : Item → Bool
  | .literal _ | .space _ => false
  | .variable _ optional | .block _ _ _ optional | .blocks _ _ _ optional => !optional

/-- A sigil and nothing else. -/
def bare : Item :=
  .variable [] false

/-- The second item can be told from the first when it is written right behind it. -/
def Apart (first : Item) : Item → Prop
  | .literal text =>
      first.isLiteral = false ∧
        (first.isOpen = true → ∀ b ∈ text.head?, Bytes.isIdent b = false ∧ b ≠ byte '?') ∧
        (first = bare → text.head? ≠ some (byte '\x7b'))
  | .space _ => first.isSpace = false
  | .block _ _ _ _ => first ≠ bare
  | .variable _ _ | .blocks _ _ _ _ => True

/-- The item with the standard delimiters in place of empty groups. -/
def filled : Item → Item
  | .block opener closer name optional =>
      .block (if opener = [] then [byte '\x7b'] else opener)
        (if closer = [] then [byte '\x7d'] else closer) name optional
  | .blocks opener closer name optional =>
      .blocks (if opener = [] then [byte '\x7b'] else opener)
        (if closer = [] then [byte '\x7d'] else closer) name optional
  | item => item

instance : (item : Item) → Decidable item.WellFormed
  | .literal text | .space text => @instDecidableAnd _ _ inferInstance (List.decidableBAll _ text)
  | .variable name _ => List.decidableBAll _ name
  | .block _ _ name _ | .blocks _ _ name _ =>
      @instDecidableAnd _ _ inferInstance
        (@instDecidableAnd _ _ inferInstance (List.decidableBAll _ name))

instance (first : Item) : (second : Item) → Decidable (first.Apart second)
  | .literal text =>
      let _ : Decidable (∀ b ∈ text.head?, Bytes.isIdent b = false ∧ b ≠ byte '?') :=
        Option.decidableForallMem _
      inferInstanceAs (Decidable (_ ∧ (_ → _) ∧ (_ → _)))
  | .space _ => inferInstanceAs (Decidable (_ = _))
  | .block _ _ _ _ => inferInstanceAs (Decidable (first ≠ bare))
  | .variable _ _ | .blocks _ _ _ _ => inferInstanceAs (Decidable True)

end Item

def render (items : List Item) : Bytes :=
  items.flatMap Item.render

/-- What a token says. -/
def itemOf (token : Token) : Item :=
  match token.element with
  | .literal => .literal token.text.text
  | .space => .space token.text.text
  | .variable reference => .variable reference.name.text reference.optional
  | .block reference delimiters =>
      .block delimiters.opener delimiters.closer reference.name.text reference.optional
  | .blocks reference delimiters =>
      .blocks delimiters.opener delimiters.closer reference.name.text reference.optional

section Readers

variable {rest : Bytes}

theorem groupInside_group {inside : Bytes} (unclosed : byte '\x7d' ∉ inside) :
    groupInside [byte '\x7d'] (inside ++ byte '\x7d' :: rest) =
      (inside, byte '\x7d' :: rest) := by
  induction inside with
  | nil => simp [groupInside]
  | cons b inside ih =>
      rw [List.mem_cons, not_or] at unclosed
      simp [groupInside, unclosed.1, ih unclosed.2]

theorem group?_group (offset : Nat) {inside : Bytes} (unclosed : byte '\x7d' ∉ inside) :
    group? .standard ⟨offset, group inside ++ rest⟩ =
      some (⟨offset + 1, inside⟩, ⟨offset + 1 + inside.length + 1, rest⟩) := by
  have behind : Cursor.advance ⟨offset, group inside ++ rest⟩ 1 =
      ⟨offset + 1, inside ++ byte '\x7d' :: rest⟩ := by
    simp [Cursor.advance, group]
  have opened : [byte '\x7b'].isPrefixOf (group inside ++ rest) = true := by
    simp [group]
  simp only [group?, Symbols.standard, opened, if_true, List.length_singleton, behind,
    groupInside_group unclosed, Cursor.moveTo_append, Cursor.sliceTo_append]
  rfl

theorem delimiters?_groups (offset : Nat) (rest : Bytes) {opener closer : Bytes}
    (openerUnclosed : byte '\x7d' ∉ opener) (closerUnclosed : byte '\x7d' ∉ closer) :
    ∃ delimiters place,
      delimiters? .standard ⟨offset, group opener ++ (group closer ++ rest)⟩ =
        some (delimiters, ⟨place, rest⟩) ∧
      delimiters.opener = (if opener = [] then [byte '\x7b'] else opener) ∧
      delimiters.closer = if closer = [] then [byte '\x7d'] else closer := by
  simp only [delimiters?, group?_group _ openerUnclosed, group?_group _ closerUnclosed,
    Option.map_some, List.isEmpty_iff]
  exact ⟨_, _, rfl, rfl, rfl⟩

/-- A name cannot go on with the text behind it. -/
def NameEnds (optional : Bool) (rest : Bytes) : Prop :=
  optional = false → ∀ b ∈ rest.head?, Bytes.isIdent b = false ∧ b ≠ byte '?'

theorem reference_named (offset : Nat) {name : Bytes} {optional : Bool}
    (ident : ∀ b ∈ name, Bytes.isIdent b = true) (ends : NameEnds optional rest) :
    reference ⟨offset, named name optional ++ rest⟩ =
      (⟨⟨offset, name⟩, optional⟩, ⟨offset + (named name optional).length, rest⟩) := by
  cases optional with
  | true =>
      have read : (name ++ byte '?' :: rest).dropWhile Bytes.isIdent = byte '?' :: rest :=
        (Bytes.span_append ident (by rintro b ⟨⟩; rfl)).2
      simp [reference, named, read, Cursor.moveTo_append, Cursor.sliceTo_append, Cursor.advance,
        Nat.add_assoc]
  | false =>
      have read : (name ++ rest).dropWhile Bytes.isIdent = rest :=
        (Bytes.span_append ident fun b first => (ends rfl b first).1).2
      have unmarked : rest.head? ≠ some (byte '?') := fun first => (ends rfl _ first).2 rfl
      simp [reference, named, read, Cursor.moveTo_append, Cursor.sliceTo_append, unmarked]

/-- A name does not begin with a foreign mark, whatever follows the name. -/
theorem not_prefix_named {name more : Bytes} {optional : Bool} {mark : UInt8}
    (foreign : Bytes.isIdent mark = false ∧ mark ≠ byte '?')
    (ident : ∀ b ∈ name, Bytes.isIdent b = true)
    (behind : name = [] → optional = false → ¬ mark :: more <+: rest) :
    ¬ mark :: more <+: named name optional ++ rest := by
  cases name with
  | cons b name =>
      have differ : mark ≠ b := by
        rintro rfl
        rw [ident mark List.mem_cons_self] at foreign
        exact Bool.noConfusion foreign.1
      simp [named, List.cons_prefix_cons, differ]
  | nil =>
      cases optional with
      | true => simp [named, List.cons_prefix_cons, foreign.2]
      | false => exact behind rfl rfl

theorem literalRun_literal {text : Bytes}
    (plain : ∀ b ∈ text, Bytes.isSpace b = false ∧ b ≠ byte '$')
    (ends : ∀ b ∈ rest.head?, Bytes.isSpace b = true ∨ b = byte '$') :
    literalRun [byte '$'] (text ++ rest) = (text, rest) := by
  induction text with
  | nil =>
      cases rest with
      | nil => rfl
      | cons b rest =>
          rcases ends b rfl with space | rfl
          · simp [literalRun, space]
          · simp [literalRun]
  | cons b text ih =>
      rw [List.forall_mem_cons] at plain
      simp [literalRun, plain.1.1, plain.1.2.symm, ih plain.2]

/-- A second sigil and a group follow. -/
def doubles (symbols : Symbols) (cursor : Cursor) : Bool :=
  symbols.sigil.isPrefixOf cursor.rest &&
    symbols.opener.isPrefixOf (cursor.advance symbols.sigil.length).rest

theorem element_of_delimiters {symbols : Symbols} {cursor behind : Cursor} {doubled : Bool}
    {delimiters : Delimiters} (recognised : doubles symbols cursor = doubled)
    (read : delimiters? symbols
      (if doubled then cursor.advance symbols.sigil.length else cursor) =
        some (delimiters, behind)) :
    element symbols cursor =
      (if doubled then .blocks (reference behind).1 delimiters
        else .block (reference behind).1 delimiters, (reference behind).2) := by
  subst recognised
  unfold doubles at read ⊢
  simp only [element, read]

theorem element_of_no_group {symbols : Symbols} {cursor : Cursor}
    (single : doubles symbols cursor = false)
    (plain : symbols.opener.isPrefixOf cursor.rest = false) :
    element symbols cursor = (.variable (reference cursor).1, (reference cursor).2) := by
  unfold doubles at single
  simp [element, single, delimiters?, group?, plain]

theorem doubles_standard_iff {offset : Nat} {text : Bytes} :
    doubles .standard ⟨offset, text⟩ = true ↔ [byte '$', byte '\x7b'] <+: text := by
  cases text with
  | nil => simp [doubles, Symbols.standard]
  | cons b text => simp [doubles, Symbols.standard, Cursor.advance, List.cons_prefix_cons]

theorem element_groups (doubled : Bool) (offset : Nat) {opener closer name : Bytes}
    {optional : Bool} (openerUnclosed : byte '\x7d' ∉ opener)
    (closerUnclosed : byte '\x7d' ∉ closer) (ident : ∀ b ∈ name, Bytes.isIdent b = true)
    (ends : NameEnds optional rest) :
    ∃ place delimiters behind,
      element .standard ⟨offset, (if doubled then [byte '$'] else []) ++
          (group opener ++ (group closer ++ (named name optional ++ rest)))⟩ =
        (if doubled then .blocks ⟨⟨place, name⟩, optional⟩ delimiters
          else .block ⟨⟨place, name⟩, optional⟩ delimiters, ⟨behind, rest⟩) ∧
      delimiters.opener = (if opener = [] then [byte '\x7b'] else opener) ∧
      delimiters.closer = if closer = [] then [byte '\x7d'] else closer := by
  have recognised : doubles .standard ⟨offset, (if doubled then [byte '$'] else []) ++
      (group opener ++ (group closer ++ (named name optional ++ rest)))⟩ = doubled := by
    cases doubled <;> rfl
  obtain ⟨delimiters, place, read, chosen⟩ :=
    delimiters?_groups (offset + if doubled then 1 else 0) (named name optional ++ rest)
      openerUnclosed closerUnclosed
  refine ⟨place, delimiters, place + (named name optional).length, ?_, chosen⟩
  cases doubled with
  | false => rw [element_of_delimiters recognised read, reference_named place ident ends]
  | true => rw [element_of_delimiters recognised read, reference_named place ident ends]

end Readers

theorem tokensFrom_sigil {offset place : Nat} {text rest : Bytes} {found : Element}
    (read : element .standard ⟨offset + 1, text⟩ = (found, ⟨place, rest⟩)) :
    ∃ slice, tokensFrom .standard offset (byte '$' :: text) =
      ⟨slice, found, {}⟩ :: tokensFrom .standard place rest := by
  have solid : Bytes.isSpace (byte '$') = false := rfl
  have begins : Symbols.standard.sigil.isPrefixOf (byte '$' :: text) = true := rfl
  have behind : element .standard ⟨offset + Symbols.standard.sigil.length,
      text.drop (Symbols.standard.sigil.length - 1)⟩ = (found, ⟨place, rest⟩) := read
  rw [tokensFrom]
  simp only [solid, begins, behind, Bool.false_eq_true, if_false, if_true]
  exact ⟨_, rfl⟩

namespace Item

/-- The text behind the item does not extend it. -/
def EndsBefore (rest : Bytes) : Item → Prop
  | .literal _ => ∀ b ∈ rest.head?, Bytes.isSpace b = true ∨ b = byte '$'
  | .space _ => ∀ b ∈ rest.head?, Bytes.isSpace b = false
  | .variable name optional =>
      NameEnds optional rest ∧
        (name = [] → optional = false →
          ¬ [byte '\x7b'] <+: rest ∧ ¬ [byte '$', byte '\x7b'] <+: rest)
  | .block _ _ _ optional | .blocks _ _ _ optional => NameEnds optional rest

end Item

section Step

variable {rest : Bytes} (offset : Nat)

theorem tokensFrom_literal {text : Bytes} (wellFormed : (Item.literal text).WellFormed)
    (ends : (Item.literal text).EndsBefore rest) :
    ∃ place, tokensFrom .standard offset (text ++ rest) =
      ⟨⟨offset, text⟩, .literal, {}⟩ :: tokensFrom .standard place rest := by
  obtain ⟨nonempty, plain⟩ := wellFormed
  cases text with
  | nil => exact absurd rfl nonempty
  | cons b text =>
      rw [List.forall_mem_cons] at plain
      have read := literalRun_literal plain.2 ends
      rw [List.cons_append, tokensFrom]
      simp only [Symbols.standard, plain.1.1, List.isPrefixOf_cons_cons,
        beq_eq_false_iff_ne.mpr plain.1.2.symm, Bool.false_and, Bool.false_eq_true, if_false, read]
      exact ⟨_, rfl⟩

theorem tokensFrom_space {text : Bytes} (wellFormed : (Item.space text).WellFormed)
    (ends : (Item.space text).EndsBefore rest) :
    ∃ place, tokensFrom .standard offset (text ++ rest) =
      ⟨⟨offset, text⟩, .space, {}⟩ :: tokensFrom .standard place rest := by
  obtain ⟨nonempty, blank⟩ := wellFormed
  cases text with
  | nil => exact absurd rfl nonempty
  | cons b text =>
      rw [List.forall_mem_cons] at blank
      have read := Bytes.span_append blank.2 ends
      rw [List.cons_append, tokensFrom]
      simp only [blank.1, if_true, read.1, read.2]
      exact ⟨_, rfl⟩

theorem element_named {name : Bytes} {optional : Bool}
    (wellFormed : (Item.variable name optional).WellFormed)
    (ends : (Item.variable name optional).EndsBefore rest) :
    element .standard ⟨offset, named name optional ++ rest⟩ =
      (.variable ⟨⟨offset, name⟩, optional⟩, ⟨offset + (named name optional).length, rest⟩) := by
  have notOpener : ¬ [byte '\x7b'] <+: named name optional ++ rest :=
    not_prefix_named (by decide) wellFormed fun nameless plain => (ends.2 nameless plain).1
  have notDoubled : ¬ [byte '$', byte '\x7b'] <+: named name optional ++ rest :=
    not_prefix_named (by decide) wellFormed fun nameless plain => (ends.2 nameless plain).2
  rw [element_of_no_group (Bool.eq_false_iff.mpr (mt doubles_standard_iff.mp notDoubled))
    (Bool.eq_false_iff.mpr (mt List.isPrefixOf_iff_prefix.mp notOpener)),
    reference_named offset wellFormed ends.1]

theorem tokensFrom_groups (doubled : Bool) {opener closer name : Bytes} {optional : Bool}
    (openerUnclosed : byte '\x7d' ∉ opener) (closerUnclosed : byte '\x7d' ∉ closer)
    (ident : ∀ b ∈ name, Bytes.isIdent b = true) (ends : NameEnds optional rest) :
    ∃ token place, tokensFrom .standard offset (byte '$' ::
        ((if doubled then [byte '$'] else []) ++
          (group opener ++ (group closer ++ (named name optional ++ rest))))) =
        token :: tokensFrom .standard place rest ∧
      itemOf token = if doubled then (Item.blocks opener closer name optional).filled
        else (Item.block opener closer name optional).filled := by
  obtain ⟨place, delimiters, behind, read, opens, closes⟩ :=
    element_groups doubled (offset + 1) openerUnclosed closerUnclosed ident ends
  obtain ⟨slice, cut⟩ := tokensFrom_sigil read
  refine ⟨_, behind, cut, ?_⟩
  cases doubled <;> simp [itemOf, Item.filled, opens, closes]

/-- An item is read back when the text behind it does not extend it. -/
theorem tokensFrom_item {item : Item} (wellFormed : item.WellFormed)
    (ends : item.EndsBefore rest) :
    ∃ token place, tokensFrom .standard offset (item.render ++ rest) =
        token :: tokensFrom .standard place rest ∧
      itemOf token = item.filled := by
  cases item with
  | literal text =>
      obtain ⟨place, read⟩ := tokensFrom_literal offset wellFormed ends
      exact ⟨_, place, read, rfl⟩
  | space text =>
      obtain ⟨place, read⟩ := tokensFrom_space offset wellFormed ends
      exact ⟨_, place, read, rfl⟩
  | «variable» name optional =>
      obtain ⟨slice, cut⟩ := tokensFrom_sigil (element_named (offset + 1) wellFormed ends)
      exact ⟨_, _, cut, rfl⟩
  | block opener closer name optional =>
      obtain ⟨openerUnclosed, closerUnclosed, ident⟩ := wellFormed
      obtain ⟨token, place, cut, meaning⟩ :=
        tokensFrom_groups offset false openerUnclosed closerUnclosed ident ends
      exact ⟨token, place, by simpa [Item.render] using cut, meaning⟩
  | blocks opener closer name optional =>
      obtain ⟨openerUnclosed, closerUnclosed, ident⟩ := wellFormed
      obtain ⟨token, place, cut, meaning⟩ :=
        tokensFrom_groups offset true openerUnclosed closerUnclosed ident ends
      exact ⟨token, place, by simpa [Item.render] using cut, meaning⟩

end Step

theorem not_isIdent_of_isSpace {b : UInt8} (space : Bytes.isSpace b = true) :
    Bytes.isIdent b = false ∧ b ≠ byte '?' := by
  have mark : byte '?' = 63 := rfl
  grind [Bytes.isSpace, Bytes.isIdent]

theorem render_cons (item : Item) (items : List Item) :
    render (item :: items) = item.render ++ render items :=
  List.flatMap_cons

/-- The byte that an item begins with. -/
def Item.Begins (b : UInt8) : Item → Prop
  | .literal text => text.head? = some b ∧ Bytes.isSpace b = false ∧ b ≠ byte '$'
  | .space _ => Bytes.isSpace b = true
  | .variable _ _ | .block _ _ _ _ | .blocks _ _ _ _ => b = byte '$'

theorem Item.WellFormed.begins {item : Item} (wellFormed : item.WellFormed) :
    ∃ b text, item.render = b :: text ∧ item.Begins b := by
  cases item with
  | literal text =>
      obtain ⟨nonempty, plain⟩ := wellFormed
      cases text with
      | nil => exact absurd rfl nonempty
      | cons b text => exact ⟨b, text, rfl, rfl, plain b List.mem_cons_self⟩
  | space text =>
      obtain ⟨nonempty, blank⟩ := wellFormed
      cases text with
      | nil => exact absurd rfl nonempty
      | cons b text => exact ⟨b, text, rfl, blank b List.mem_cons_self⟩
  | «variable» name optional => exact ⟨_, _, rfl, rfl⟩
  | block opener closer name optional => exact ⟨_, _, rfl, rfl⟩
  | blocks opener closer name optional => exact ⟨_, _, rfl, rfl⟩

namespace Item.Apart

variable {first second : Item} {b : UInt8}

theorem ends_name (apart : first.Apart second) (begins : second.Begins b)
    (isOpen : first.isOpen = true) : Bytes.isIdent b = false ∧ b ≠ byte '?' := by
  cases second with
  | literal text => exact apart.2.1 isOpen b begins.1
  | space text => exact not_isIdent_of_isSpace begins
  | _ =>
      obtain rfl : b = byte '$' := begins
      decide

theorem ends_literal {text : Bytes} (apart : (Item.literal text).Apart second)
    (begins : second.Begins b) : Bytes.isSpace b = true ∨ b = byte '$' := by
  cases second with
  | literal text => exact Bool.noConfusion apart.1
  | space text => exact .inl begins
  | _ => exact .inr begins

theorem ends_space {text : Bytes} (apart : (Item.space text).Apart second)
    (begins : second.Begins b) : Bytes.isSpace b = false := by
  cases second with
  | literal text => exact begins.2.1
  | space text => exact Bool.noConfusion apart
  | _ =>
      obtain rfl : b = byte '$' := begins
      decide

theorem not_opener (apart : bare.Apart second) (begins : second.Begins b) :
    b ≠ byte '\x7b' := by
  rintro rfl
  cases second with
  | literal text => exact apart.2.2 rfl begins.1
  | space text => exact Bool.noConfusion begins
  | _ =>
      have sigil : byte '\x7b' = byte '$' := begins
      exact absurd sigil (by decide)

end Item.Apart

section Neighbours

variable {item : Item} {items : List Item}

theorem exists_begins {b : UInt8} (wellFormed : ∀ item ∈ items, item.WellFormed)
    (chain : (item :: items).IsChain Item.Apart) (first : (render items).head? = some b) :
    ∃ next, item.Apart next ∧ next.Begins b := by
  cases items with
  | nil => cases first
  | cons next items =>
      obtain ⟨begin, text, written, begins⟩ := (wellFormed next List.mem_cons_self).begins
      rw [render_cons, written] at first
      cases first
      exact ⟨next, (List.isChain_cons_cons.mp chain).1, begins⟩

theorem nameEnds_render {optional : Bool} (wellFormed : ∀ item ∈ items, item.WellFormed)
    (chain : (item :: items).IsChain Item.Apart) (isOpen : optional = false → item.isOpen = true) :
    NameEnds optional (render items) := by
  intro plain b first
  obtain ⟨next, apart, begins⟩ := exists_begins wellFormed chain first
  exact apart.ends_name begins (isOpen plain)

theorem not_opener_prefix_render (wellFormed : ∀ item ∈ items, item.WellFormed)
    (chain : (Item.bare :: items).IsChain Item.Apart) : ¬ [byte '\x7b'] <+: render items := by
  rintro ⟨text, opened⟩
  have first : (render items).head? = some (byte '\x7b') := by rw [← opened]; rfl
  obtain ⟨next, apart, begins⟩ := exists_begins wellFormed chain first
  exact apart.not_opener begins rfl

/-- A bare sigil does not double another. -/
theorem not_doubled_prefix_render (wellFormed : ∀ item ∈ items, item.WellFormed)
    (chain : (Item.bare :: items).IsChain Item.Apart) :
    ¬ [byte '$', byte '\x7b'] <+: render items := by
  cases items with
  | nil => simp [render]
  | cons next items =>
      rw [List.isChain_cons_cons] at chain
      rw [List.forall_mem_cons] at wellFormed
      obtain ⟨begin, text, written, begins⟩ := wellFormed.1.begins
      rw [render_cons, written, List.cons_append, List.cons_prefix_cons]
      rintro ⟨rfl, opened⟩
      cases next with
      | literal text => exact begins.2.2 rfl
      | space text => exact Bool.noConfusion begins
      | «variable» name optional =>
          -- a second bare sigil is followed by no group either
          cases written
          refine not_prefix_named (by decide) wellFormed.1 (fun nameless plain => ?_) opened
          subst nameless plain
          exact not_opener_prefix_render wellFormed.2 chain.2
      | block opener closer name optional => exact chain.1 rfl
      | blocks opener closer name optional =>
          cases written
          rw [List.cons_append, List.cons_prefix_cons] at opened
          exact absurd opened.1 (by decide)

/-- Items that are kept apart do not extend each other. -/
theorem endsBefore_render (wellFormed : ∀ item ∈ items, item.WellFormed)
    (chain : (item :: items).IsChain Item.Apart) : item.EndsBefore (render items) := by
  cases item with
  | literal text =>
      intro b first
      obtain ⟨next, apart, begins⟩ := exists_begins wellFormed chain first
      exact apart.ends_literal begins
  | space text =>
      intro b first
      obtain ⟨next, apart, begins⟩ := exists_begins wellFormed chain first
      exact apart.ends_space begins
  | «variable» name optional =>
      refine ⟨nameEnds_render wellFormed chain (by simp [Item.isOpen]), ?_⟩
      rintro rfl rfl
      exact ⟨not_opener_prefix_render wellFormed chain, not_doubled_prefix_render wellFormed chain⟩
  | block opener closer name optional =>
      exact nameEnds_render wellFormed chain (by simp [Item.isOpen])
  | blocks opener closer name optional =>
      exact nameEnds_render wellFormed chain (by simp [Item.isOpen])

theorem map_tokensFrom_render (offset : Nat) (wellFormed : ∀ item ∈ items, item.WellFormed)
    (chain : items.IsChain Item.Apart) :
    (tokensFrom .standard offset (render items)).map itemOf = items.map Item.filled := by
  induction items generalizing offset with
  | nil => simp [render, tokensFrom]
  | cons item items ih =>
      rw [List.forall_mem_cons] at wellFormed
      obtain ⟨token, place, cut, meaning⟩ :=
        tokensFrom_item offset wellFormed.1 (endsBefore_render wellFormed.2 chain)
      rw [render_cons, cut, List.map_cons, meaning, ih place wellFormed.2 chain.tail, List.map_cons]

end Neighbours

theorem map_itemOf_link (tokens : List Token) :
    (Token.link tokens).map itemOf = tokens.map itemOf := by
  have same := congrArg (List.map fun said : Slice × Element => itemOf ⟨said.1, said.2, {}⟩)
    (Token.map_linkFrom 0 tokens)
  rw [List.map_map, List.map_map] at same
  exact same

/-- Items that are kept apart are read back as they were written, with the standard
delimiters in place of empty groups. -/
theorem compile_render {items : List Item} (wellFormed : ∀ item ∈ items, item.WellFormed)
    (chain : items.IsChain Item.Apart) :
    ∃ pattern, compile (render items) .standard = .ok pattern ∧
      pattern.tokens.map itemOf = items.map Item.filled :=
  ⟨_, compile_standard _, (map_itemOf_link _).trans (map_tokensFrom_render 0 wellFormed chain)⟩

/-- Two bare sigils stand in front of a doubled one, and braces are text behind a
name that has ended. -/
theorem compile_render_crowded :
    ∃ pattern,
      compile (bytes "$$$$\x7b(\x7d\x7b)\x7d$?a\x7b$\x7b\x7d\x7b\x7dx?\x7b \x7d") .standard =
          .ok pattern ∧
      pattern.tokens.map itemOf =
        [.variable [] false, .variable [] false, .blocks (bytes "(") (bytes ")") [] false,
          .variable [] true, .literal (bytes "a\x7b"),
          .block (bytes "\x7b") (bytes "\x7d") (bytes "x") true,
          .literal (bytes "\x7b"), .space (bytes " "), .literal (bytes "\x7d")] := by
  have written : bytes "$$$$\x7b(\x7d\x7b)\x7d$?a\x7b$\x7b\x7d\x7b\x7dx?\x7b \x7d" =
      render [.variable [] false, .variable [] false, .blocks (bytes "(") (bytes ")") [] false,
        .variable [] true, .literal (bytes "a\x7b"), .block [] [] (bytes "x") true,
        .literal (bytes "\x7b"), .space (bytes " "), .literal (bytes "\x7d")] := by
    decide
  rw [written]
  exact compile_render (by decide) (by decide)

end Stencil.Pattern
