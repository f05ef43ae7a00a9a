import Stencil.Pattern.Token

/-!
# Compiling patterns

A pattern is cut into tokens from left to right.  White space wins over the
sigil, and the sigil over literal text.  A reference is a sigil, an optional
pair of delimiter groups, a name and an optional question mark; a doubled sigil
in front of a group asks for a sequence of blocks.  No pattern is malformed: a
bare sigil is a variable without a name, and an unfinished group runs to the
end of the pattern.
-/

namespace Stencil

/-- A compiled pattern. -/
structure Pattern where
  source : Bytes
  symbols : Symbols
  tokens : List Token
  deriving DecidableEq

namespace Pattern

/-- The text up to the first place where `closer` begins, and the text from
there on. -/
def groupInside (closer : Bytes) : Bytes → Bytes × Bytes
  | [] => ([], [])
  | b :: text =>
      if closer.isPrefixOf (b :: text) then
        ([], b :: text)
      else
        let (inside, rest) := groupInside closer text
        (b :: inside, rest)

/-- Reads a delimiter group if one begins here: its inside, and the position
behind its closer.  An unfinished group runs to the end. -/
def group? (symbols : Symbols) (cursor : Cursor) : Option (Slice × Cursor) :=
  if symbols.opener.isPrefixOf cursor.rest then
    let inside := cursor.advance symbols.opener.length
    let closing := inside.moveTo (groupInside symbols.closer inside.rest).2
    some (inside.sliceTo closing.rest,
      if closing.rest.isEmpty then closing else closing.advance symbols.closer.length)
  else
    none

/-- The delimiters written as one or two groups, if a group begins here. -/
def delimiters? (symbols : Symbols) (cursor : Cursor) : Option (Delimiters × Cursor) :=
  (group? symbols cursor).map fun (first, afterFirst) =>
    let (second, rest) :=
      match group? symbols afterFirst with
      | some (second, rest) => (some second, rest)
      | none => (none, afterFirst)
    let chosen (group : Option Slice) (standard : Bytes) : Bytes :=
      match group with
      | some slice => if slice.text.isEmpty then standard else slice.text
      | none => standard
    ({ opener := chosen (some first) symbols.opener
       closer := chosen second symbols.closer
       openerGroup := some first
       closerGroup := second }, rest)

/-- Reads a name and the question mark that makes a reference optional. -/
def reference (cursor : Cursor) : Reference × Cursor :=
  let afterName := cursor.moveTo (cursor.rest.dropWhile Bytes.isIdent)
  let name := cursor.sliceTo afterName.rest
  if afterName.rest.head? = some (byte '?') then
    (⟨name, true⟩, afterName.advance 1)
  else
    (⟨name, false⟩, afterName)

/-- Reads a reference behind its sigil. -/
def element (symbols : Symbols) (cursor : Cursor) : Element × Cursor :=
  let afterSigil := cursor.advance symbols.sigil.length
  let doubled := symbols.sigil.isPrefixOf cursor.rest &&
    symbols.opener.isPrefixOf afterSigil.rest
  match delimiters? symbols (if doubled then afterSigil else cursor) with
  | some (delimiters, afterGroups) =>
      let (named, rest) := reference afterGroups
      (if doubled then .blocks named delimiters else .block named delimiters, rest)
  | none =>
      let (named, rest) := reference cursor
      (.variable named, rest)

/-- Literal text up to white space or the next sigil. -/
def literalRun (sigil : Bytes) : Bytes → Bytes × Bytes
  | [] => ([], [])
  | b :: text =>
      if Bytes.isSpace b || sigil.isPrefixOf (b :: text) then
        ([], b :: text)
      else
        let (run, rest) := literalRun sigil text
        (b :: run, rest)

theorem groupInside_append (closer text : Bytes) :
    (groupInside closer text).1 ++ (groupInside closer text).2 = text := by
  fun_induction groupInside closer text with
  | case1 => rfl
  | case2 => rfl
  | case3 b text _ inside rest split ih =>
      rw [split] at ih
      simpa using ih

theorem literalRun_append (sigil text : Bytes) :
    (literalRun sigil text).1 ++ (literalRun sigil text).2 = text := by
  fun_induction literalRun sigil text with
  | case1 => rfl
  | case2 => rfl
  | case3 b text _ run rest split ih =>
      rw [split] at ih
      simpa using ih

theorem group?_length {symbols : Symbols} {cursor rest : Cursor} {slice : Slice}
    (found : group? symbols cursor = some (slice, rest)) :
    rest.rest.length ≤ cursor.rest.length := by
  unfold group? at found
  split at found
  · have whole := congrArg List.length (groupInside_append symbols.closer
      (cursor.advance symbols.opener.length).rest)
    cases found
    split <;>
      (simp [Cursor.advance, Cursor.moveTo] at whole ⊢
       omega)
  · cases found

theorem delimiters?_length {symbols : Symbols} {cursor rest : Cursor}
    {delimiters : Delimiters}
    (found : delimiters? symbols cursor = some (delimiters, rest)) :
    rest.rest.length ≤ cursor.rest.length := by
  unfold delimiters? at found
  obtain ⟨⟨first, afterFirst⟩, opened, pair⟩ := Option.map_eq_some_iff.mp found
  have shorter := group?_length opened
  cases second : group? symbols afterFirst with
  | none =>
      simp only [second, Prod.mk.injEq] at pair
      obtain ⟨_, rfl⟩ := pair
      exact shorter
  | some both =>
      obtain ⟨slice, afterSecond⟩ := both
      have again := group?_length second
      simp only [second, Prod.mk.injEq] at pair
      obtain ⟨_, rfl⟩ := pair
      omega

theorem reference_length (cursor : Cursor) :
    (reference cursor).2.rest.length ≤ cursor.rest.length := by
  have shorter := (List.dropWhile_suffix Bytes.isIdent (l := cursor.rest)).length_le
  simp only [reference]
  split
  · simp [Cursor.advance, Cursor.moveTo]
    omega
  · simpa [Cursor.moveTo] using shorter

theorem element_length (symbols : Symbols) (cursor : Cursor) :
    (element symbols cursor).2.rest.length ≤ cursor.rest.length := by
  unfold element
  simp only
  split
  · next delimiters afterGroups found =>
      have shorter := delimiters?_length found
      have named := reference_length afterGroups
      split at shorter
      · simp [Cursor.advance] at shorter
        simp only
        omega
      · simp only
        omega
  · exact reference_length cursor

/-- Cuts a pattern into tokens, from the given offset on. -/
def tokensFrom (symbols : Symbols) (offset : Nat) (text : Bytes) : List Token :=
  match text with
  | [] => []
  | b :: tail =>
      if Bytes.isSpace b then
        let run := b :: tail.takeWhile Bytes.isSpace
        ⟨⟨offset, run⟩, .space, {}⟩ ::
          tokensFrom symbols (offset + run.length) (tail.dropWhile Bytes.isSpace)
      else if symbols.sigil.isPrefixOf (b :: tail) then
        let read := element symbols
          ⟨offset + symbols.sigil.length, tail.drop (symbols.sigil.length - 1)⟩
        ⟨Cursor.sliceTo ⟨offset, b :: tail⟩ read.2.rest, read.1, {}⟩ ::
          tokensFrom symbols read.2.offset read.2.rest
      else
        let run := b :: (literalRun symbols.sigil tail).1
        ⟨⟨offset, run⟩, .literal, {}⟩ ::
          tokensFrom symbols (offset + run.length) (literalRun symbols.sigil tail).2
termination_by text.length
decreasing_by
  · have shorter := (List.dropWhile_suffix Bytes.isSpace (l := tail)).length_le
    simp_wf
    omega
  · have shorter := element_length symbols
      ⟨offset + symbols.sigil.length, tail.drop (symbols.sigil.length - 1)⟩
    simp at shorter
    simp_wf
    omega
  · have whole := congrArg List.length (literalRun_append symbols.sigil tail)
    simp at whole
    simp_wf
    omega

/-- Cuts a pattern into tokens and compiles it.  The only failure is an empty
mark. -/
def compile (source : Bytes) (symbols : Symbols) : Except Symbols.Fault Pattern :=
  match symbols.fault? with
  | some fault => .error fault
  | none => .ok ⟨source, symbols, Token.link (tokensFrom symbols 0 source)⟩

/-- The names of the capturing tokens, in pattern order. -/
def names (pattern : Pattern) : List Bytes :=
  pattern.tokens.filterMap fun token => token.reference?.map (·.name.text)

end Pattern

end Stencil
