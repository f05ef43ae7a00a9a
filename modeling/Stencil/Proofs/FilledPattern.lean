import Mathlib.Data.List.Chain
import Stencil.Proofs.BalancedBlock
import Stencil.Proofs.MatchExactness

/-!
# Matching a filled pattern

A pattern is filled by choosing a text for each of its tokens.  The matcher never
goes back, so it finds the chosen texts again only if each token stops where its text
ends: white space because no white space follows it, a word because white space or the
next token follows it and not earlier, a block because its inside is balanced.  Under
these conditions the chosen texts are a reading of the filled pattern.
-/

namespace Stencil

/-- Tokens that are not both white space. -/
def Token.NotBothSpace (first second : Token) : Prop :=
  ¬ (first.isSpace = true ∧ second.isSpace = true)

/-- The text of a literal does not begin with white space. -/
def Token.Solid (token : Token) : Prop :=
  token.element = .literal → ∀ b ∈ token.text.text.head?, Bytes.isSpace b = false

theorem Token.isSpace_iff {token : Token} : token.isSpace = true ↔ token.element = .space := by
  unfold Token.isSpace
  cases token.element <;> simp

/-- Recording the look-ahead keeps what holds of neighbours by their texts and
elements. -/
theorem Token.isChain_link (holds : Slice × Element → Slice × Element → Prop)
    {tokens : List Token}
    (chain : tokens.IsChain fun first second =>
      holds (first.text, first.element) (second.text, second.element)) :
    (link tokens).IsChain fun first second =>
      holds (first.text, first.element) (second.text, second.element) := by
  let core (token : Token) : Slice × Element := (token.text, token.element)
  have cut : (tokens.map core).IsChain holds := (List.isChain_map core).mpr chain
  rw [← map_linkFrom 0] at cut
  exact (List.isChain_map core).mp cut

namespace Pattern

section Compiled

variable {symbols : Symbols} {offset : Nat} {text : Bytes}

theorem element_ne (symbols : Symbols) (cursor : Cursor) :
    (element symbols cursor).1 ≠ .literal ∧ (element symbols cursor).1 ≠ .space := by
  rcases element_cases symbols cursor with ⟨_, _, _, _, _, _, block | blocks⟩ | named
  · simp [block]
  · simp [blocks]
  · simp [named]

/-- A token of white space is cut from white space. -/
theorem head_of_isSpace {token : Token}
    (first : token ∈ (tokensFrom symbols offset text).head?) (space : token.isSpace = true) :
    ∃ b ∈ text.head?, Bytes.isSpace b = true := by
  cases text with
  | nil => simp [tokensFrom] at first
  | cons b tail =>
      rw [tokensFrom] at first
      split at first
      · next blank => exact ⟨b, rfl, blank⟩
      split at first
      · cases first
        exact absurd (Token.isSpace_iff.mp space) (element_ne _ _).2
      · cases first
        cases space

theorem tokensFrom_chain (symbols : Symbols) (offset : Nat) (text : Bytes) :
    (tokensFrom symbols offset text).IsChain Token.NotBothSpace := by
  fun_induction tokensFrom symbols offset text with
  | case1 => exact .nil
  | case2 offset b tail blank run ih =>
      apply List.isChain_cons.mpr
      refine ⟨fun next first both => ?_, ih⟩
      obtain ⟨c, begins, blank⟩ := head_of_isSpace first both.2
      have stops := List.head?_dropWhile_not Bytes.isSpace tail
      rw [Option.mem_def.mp begins] at stops
      simp [blank] at stops
  | case3 offset b tail notBlank begins read ih =>
      apply List.isChain_cons.mpr
      refine ⟨fun next first both => ?_, ih⟩
      exact (element_ne _ _).2 (Token.isSpace_iff.mp both.1)
  | case4 offset b tail notBlank noSigil run ih =>
      apply List.isChain_cons.mpr
      refine ⟨fun next first both => ?_, ih⟩
      cases both.1

theorem tokensFrom_solid (symbols : Symbols) (offset : Nat) (text : Bytes) :
    ∀ token ∈ tokensFrom symbols offset text, token.Solid := by
  fun_induction tokensFrom symbols offset text with
  | case1 => simp
  | case2 offset b tail blank run ih =>
      intro token member
      rcases List.mem_cons.mp member with rfl | later
      · intro literal
        cases literal
      · exact ih token later
  | case3 offset b tail notBlank begins read ih =>
      intro token member
      rcases List.mem_cons.mp member with rfl | later
      · intro literal
        exact absurd literal (element_ne _ _).1
      · exact ih token later
  | case4 offset b tail notBlank noSigil run ih =>
      intro token member
      rcases List.mem_cons.mp member with rfl | later
      · intro literal c first
        cases first
        simpa using notBlank
      · exact ih token later

variable {source : Bytes} {pattern : Pattern}

theorem chain_of_compile (compiled : compile source symbols = .ok pattern) :
    pattern.tokens.IsChain Token.NotBothSpace := by
  obtain ⟨-, rfl⟩ := compile_eq_ok_iff.mp compiled
  exact Token.isChain_link (fun first second =>
      Token.NotBothSpace ⟨first.1, first.2, {}⟩ ⟨second.1, second.2, {}⟩)
    (tokensFrom_chain symbols 0 source)

theorem solid_of_compile (compiled : compile source symbols = .ok pattern) :
    ∀ token ∈ pattern.tokens, token.Solid := by
  obtain ⟨-, rfl⟩ := compile_eq_ok_iff.mp compiled
  intro token member
  obtain ⟨original, originalMember, text, element⟩ := Token.exists_of_mem_link member
  have solid := tokensFrom_solid symbols 0 source original originalMember
  simpa only [Token.Solid, text, element] using solid

end Compiled

end Pattern

/-- The token is a word. -/
def Token.isVariable (token : Token) : Bool :=
  token.element matches .variable _

/-- The delimiters as two bytes, if each is a single byte. -/
def Delimiters.pair? (delimiters : Delimiters) : Option (UInt8 × UInt8) :=
  match delimiters.opener, delimiters.closer with
  | [opener], [closer] => some (opener, closer)
  | _, _ => none

theorem Delimiters.eq_of_pair? {delimiters : Delimiters} {opener closer : UInt8}
    (found : delimiters.pair? = some (opener, closer)) :
    delimiters.opener = [opener] ∧ delimiters.closer = [closer] := by
  unfold pair? at found
  split at found
  · next opens closes =>
      cases found
      exact ⟨opens, closes⟩
  · cases found

/-- A token that cannot be missing and whose end is easy to tell: no sequence of
blocks, and blocks only between two different bytes that are not white space. -/
def Token.Simple (token : Token) : Prop :=
  match token.element with
  | .literal | .space => True
  | .variable reference => reference.optional = false
  | .block reference delimiters =>
      reference.optional = false ∧ ∃ pair ∈ delimiters.pair?, pair.1 ≠ pair.2 ∧
        Bytes.isSpace pair.1 = false ∧ Bytes.isSpace pair.2 = false
  | .blocks _ _ => False

/-- A token and the text that is chosen for it. -/
structure Piece where
  token : Token
  value : Bytes

namespace Piece

/-- How the piece is written: a literal as it is, a block between its delimiters. -/
def text (piece : Piece) : Bytes :=
  match piece.token.element with
  | .literal => piece.token.text.text
  | .space | .variable _ => piece.value
  | .block _ delimiters | .blocks _ delimiters =>
      delimiters.opener ++ piece.value ++ delimiters.closer

def render (pieces : List Piece) : Bytes :=
  pieces.flatMap text

/-- The name of the piece and what is chosen for it, if it has a name. -/
def named? (piece : Piece) : Option (Bytes × Bytes) :=
  piece.token.reference?.map fun reference => (reference.name.text, piece.value)

/-- What is captured of a piece that is written at an offset. -/
def capture? (start : Nat) (piece : Piece) : Option Capture :=
  match piece.token.element with
  | .literal | .space => none
  | .variable reference => some { name := reference.name.text, value := ⟨start, piece.value⟩ }
  | .block reference delimiters | .blocks reference delimiters =>
      some { name := reference.name.text,
             value := ⟨start + delimiters.opener.length, piece.value⟩ }

/-- The shares of pieces that are written one after the other from an offset on. -/
def shares : Nat → List Piece → List Share
  | _, [] => []
  | start, piece :: pieces =>
      ⟨piece.token, start, start + piece.text.length, piece.capture? start⟩ ::
        shares (start + piece.text.length) pieces

/-- The chosen text can stand at an offset of the whole text: white space is not empty,
a word is not empty and has neither white space nor the next token in it, and the
inside of a block is balanced. -/
def Suits (whole : Bytes) (start : Nat) (later : List Token) (piece : Piece) : Prop :=
  match piece.token.element with
  | .literal | .blocks _ _ => True
  | .space => piece.value ≠ [] ∧ ∀ b ∈ piece.value, Bytes.isSpace b = true
  | .variable _ =>
      piece.value ≠ [] ∧ (∀ b ∈ piece.value, Bytes.isSpace b = false) ∧
        ∀ i, i < piece.value.length → ¬ NextBegins whole later (start + i)
  | .block _ delimiters => ∀ pair ∈ delimiters.pair?, Balanced pair.1 pair.2 piece.value

/-- Each of the pieces suits where it is written. -/
def SuitsFrom (whole : Bytes) : Nat → List Piece → Prop
  | _, [] => True
  | start, piece :: pieces =>
      piece.Suits whole start (pieces.map token) ∧
        SuitsFrom whole (start + piece.text.length) pieces

end Piece

/-- The tokens of a pattern with a suitable text for each. -/
structure Filling (tokens : List Token) (pieces : List Piece) : Prop where
  tokens : pieces.map Piece.token = tokens
  suits : Piece.SuitsFrom (Piece.render pieces) 0 pieces

namespace Piece

theorem render_cons (piece : Piece) (pieces : List Piece) :
    render (piece :: pieces) = piece.text ++ render pieces :=
  List.flatMap_cons

theorem map_capture? (start : Nat) (piece : Piece) :
    (piece.capture? start).map (fun capture => (capture.name, capture.value.text)) =
      piece.named? := by
  unfold capture? named? Token.reference?
  cases piece.token.element <;> rfl

theorem map_captures (start : Nat) (pieces : List Piece) :
    ((shares start pieces).filterMap Share.capture).map
        (fun capture => (capture.name, capture.value.text)) =
      pieces.filterMap named? := by
  rw [List.map_filterMap]
  induction pieces generalizing start with
  | nil => rfl
  | cons piece pieces ih =>
      rw [shares, List.filterMap_cons, List.filterMap_cons, map_capture?, ih]

section Fits

variable {whole rest : Bytes} {start : Nat} {piece : Piece} {strict : Bool}
  {earlier : List Share} {later : List Token}

/-- The piece is written at an offset of the whole text, and then the rest. -/
structure Written (whole : Bytes) (start : Nat) (piece : Piece) (rest : Bytes) : Prop where
  inside : start ≤ whole.length
  split : whole.drop start = piece.text ++ rest

theorem Written.between_eq (written : Written whole start piece rest) :
    whole.between start (start + piece.text.length) = piece.text :=
  (Bytes.drop_eq_append written.split).1.symm

theorem Written.rest_eq (written : Written whole start piece rest) :
    whole.drop (start + piece.text.length) = rest :=
  (Bytes.drop_eq_append written.split).2.symm

theorem Written.stop_le (written : Written whole start piece rest) :
    start + piece.text.length ≤ whole.length :=
  Bytes.stop_le_of_split written.inside written.split

theorem Written.head_rest (written : Written whole start piece rest) :
    whole[start + piece.text.length]? = rest.head? := by
  rw [← List.head?_drop, written.rest_eq]

theorem Written.mem_text (written : Written whole start piece rest) {place : Nat}
    (atLeast : start ≤ place) (below : place < start + piece.text.length) {b : UInt8}
    (found : b ∈ whole[place]?) : b ∈ piece.text := by
  obtain ⟨i, rfl⟩ := Nat.exists_eq_add_of_le atLeast
  have within : i < piece.text.length := by omega
  rw [← List.getElem?_drop, written.split, List.getElem?_append_left within] at found
  exact List.mem_of_getElem? found

theorem fits_literal (written : Written whole start piece rest)
    (literal : piece.token.element = .literal) :
    Share.Fits strict whole earlier
      ⟨piece.token, start, start + piece.text.length, piece.capture? start⟩ later := by
  simp only [Share.Fits, literal]
  rw [written.between_eq]
  simp [text, capture?, literal]

theorem fits_space (written : Written whole start piece rest)
    (space : piece.token.element = .space) (suits : piece.Suits whole start later)
    (solid : ∀ b ∈ rest.head?, Bytes.isSpace b = false) :
    Share.Fits strict whole earlier
      ⟨piece.token, start, start + piece.text.length, piece.capture? start⟩ later := by
  have spelled : piece.text = piece.value := by simp [text, space]
  simp only [Suits, space] at suits
  obtain ⟨filled, blank⟩ := suits
  simp only [Share.Fits, space]
  refine ⟨⟨Nat.le_add_right _ _, written.stop_le, ?_, ?_⟩, ?_, ?_⟩
  · rw [written.between_eq, spelled]
    exact blank
  · rw [written.head_rest]
    exact solid
  · intro empty
    have positive := List.length_pos_iff.mpr filled
    rw [spelled] at empty
    omega
  · simp [capture?, space]

theorem fits_variable {reference : Reference} (written : Written whole start piece rest)
    (isVariable : piece.token.element = .variable reference)
    (suits : piece.Suits whole start later)
    (ended : rest = [] ∨ (∃ b ∈ rest.head?, Bytes.isSpace b = true) ∨
      NextBegins whole later (start + piece.text.length)) :
    Share.Fits strict whole earlier
      ⟨piece.token, start, start + piece.text.length, piece.capture? start⟩ later := by
  have spelled : piece.text = piece.value := by simp [text, isVariable]
  simp only [Suits, isVariable] at suits
  rw [← spelled] at suits
  obtain ⟨filled, solid, own⟩ := suits
  have positive := List.length_pos_iff.mpr filled
  have noSpace : ∀ place, start ≤ place → place < start + piece.text.length →
      ∀ b ∈ whole[place]?, Bytes.isSpace b = false :=
    fun place atLeast below b found => solid b (written.mem_text atLeast below found)
  simp only [Share.Fits, isVariable]
  refine ⟨start, ?_, ⟨Nat.le_add_right _ _, written.stop_le, noSpace, ?_, ?_⟩, ?_, ?_⟩
  · split
    · rfl
    · refine ⟨Nat.le_refl _, written.inside, by simp, ?_⟩
      exact noSpace start (Nat.le_refl _) (by omega)
  · intro place atLeast below
    obtain ⟨i, rfl⟩ := Nat.exists_eq_add_of_le atLeast
    exact own i (by omega)
  · rcases ended with nothing | blank | begins
    · left
      have lengths := congrArg List.length written.rest_eq
      have stop := written.stop_le
      rw [nothing, List.length_drop, List.length_nil] at lengths
      omega
    · right; left
      rwa [written.head_rest]
    · exact .inr (.inr begins)
  · intro empty
    omega
  · rw [written.between_eq]
    simp [capture?, isVariable, spelled]

theorem fits_block {reference : Reference} {delimiters : Delimiters}
    (written : Written whole start piece rest)
    (isBlock : piece.token.element = .block reference delimiters)
    (simple : piece.token.Simple) (suits : piece.Suits whole start later) :
    Share.Fits strict whole earlier
      ⟨piece.token, start, start + piece.text.length, piece.capture? start⟩ later := by
  simp only [Token.Simple, isBlock] at simple
  obtain ⟨-, ⟨opener, closer⟩, single, differ, -⟩ := simple
  obtain ⟨opens, closes⟩ := Delimiters.eq_of_pair? single
  simp only [Suits, isBlock] at suits
  have spelled : piece.text ++ rest = opener :: (piece.value ++ closer :: rest) := by
    simp [text, isBlock, opens, closes]
  have read := Block.read?_balanced differ (suits _ single) rest
  simp only [Share.Fits, isBlock]
  left
  refine ⟨⟨piece.value, true, rest⟩, ⟨?_, Nat.le_add_right _ _, written.stop_le, ?_⟩, ?_, ?_⟩
  · rw [written.split, spelled, opens, closes]
    exact read
  · exact written.rest_eq.symm
  · intro _
    rfl
  · simp [capture?, isBlock, Delimiters.inner]

end Fits

end Piece

/-- What is known of the tokens of a compiled pattern, and what is asked of them. -/
structure Token.Regular (tokens : List Token) : Prop where
  wellFormed : ∀ token ∈ tokens, token.WellFormed
  solid : ∀ token ∈ tokens, token.Solid
  simple : ∀ token ∈ tokens, token.Simple
  spaces : tokens.IsChain Token.NotBothSpace
  words : tokens.IsChain fun first second =>
    ¬ (first.isVariable = true ∧ second.isVariable = true)

theorem Token.Regular.tail {token : Token} {tokens : List Token}
    (regular : Token.Regular (token :: tokens)) : Token.Regular tokens where
  wellFormed := (List.forall_mem_cons.mp regular.wellFormed).2
  solid := (List.forall_mem_cons.mp regular.solid).2
  simple := (List.forall_mem_cons.mp regular.simple).2
  spaces := (List.isChain_cons.mp regular.spaces).2
  words := (List.isChain_cons.mp regular.words).2

namespace Piece

section Filling

variable {whole : Bytes} {start : Nat} {piece : Piece} {pieces : List Piece}

/-- A piece other than white space does not begin with white space. -/
theorem head_text (regular : Token.Regular (piece.token :: pieces.map token))
    (suits : piece.Suits whole start (pieces.map token))
    (significant : piece.token.isSpace = false) :
    ∃ b rest, piece.text = b :: rest ∧ Bytes.isSpace b = false := by
  have wellFormed := regular.wellFormed piece.token List.mem_cons_self
  have simple := regular.simple piece.token List.mem_cons_self
  cases element : piece.token.element with
  | literal =>
      simp only [Token.WellFormed, element] at wellFormed
      obtain ⟨b, rest, spelled⟩ := List.exists_cons_of_ne_nil wellFormed
      refine ⟨b, rest, by simp [text, element, spelled], ?_⟩
      apply regular.solid piece.token List.mem_cons_self element
      rw [spelled]
      rfl
  | space =>
      rw [Token.isSpace_iff.mpr element] at significant
      cases significant
  | «variable» reference =>
      simp only [Suits, element] at suits
      obtain ⟨filled, solid, -⟩ := suits
      obtain ⟨b, rest, spelled⟩ := List.exists_cons_of_ne_nil filled
      exact ⟨b, rest, by simp [text, element, spelled], solid b (by simp [spelled])⟩
  | block reference delimiters =>
      simp only [Token.Simple, element] at simple
      obtain ⟨-, ⟨opener, closer⟩, single, -, blank, -⟩ := simple
      refine ⟨opener, piece.value ++ delimiters.closer, ?_, blank⟩
      simp [text, element, (Delimiters.eq_of_pair? single).1]
  | blocks reference delimiters => simp only [Token.Simple, element] at simple

/-- No white space follows white space. -/
theorem solid_behind_space (regular : Token.Regular (piece.token :: pieces.map token))
    (suits : SuitsFrom whole start pieces) (space : piece.token.isSpace = true) :
    ∀ b ∈ (render pieces).head?, Bytes.isSpace b = false := by
  intro b first
  cases pieces with
  | nil => cases first
  | cons next pieces =>
      have apart := (List.isChain_cons_cons.mp regular.spaces).1
      have significant : next.token.isSpace = false := by
        rw [Bool.eq_false_iff]
        exact fun blank => apart ⟨space, blank⟩
      obtain ⟨c, rest, spelled, solid⟩ := head_text regular.tail suits.1 significant
      rw [render_cons, spelled] at first
      cases first
      exact solid

/-- Behind a word the text is at its end, or white space or the next token follows. -/
theorem ended_behind_word (regular : Token.Regular (piece.token :: pieces.map token))
    (written : Written whole start piece (render pieces))
    (suits : SuitsFrom whole (start + piece.text.length) pieces)
    (isWord : piece.token.isVariable = true) :
    render pieces = [] ∨ (∃ b ∈ (render pieces).head?, Bytes.isSpace b = true) ∨
      NextBegins whole (pieces.map token) (start + piece.text.length) := by
  cases pieces with
  | nil => exact .inl rfl
  | cons next pieces =>
      right
      have nextBegins : ∀ opening, next.token.isSpace = false →
          next.token.opening? = some opening → opening <+: next.text →
          NextBegins whole ((next :: pieces).map token) (start + piece.text.length) := by
        intro opening significant begins leads
        refine ⟨[], next.token, pieces.map token, opening, rfl, by simp, significant, begins, ?_⟩
        rw [written.rest_eq, render_cons]
        exact leads.trans (List.prefix_append _ _)
      cases element : next.token.element with
      | literal =>
          right
          apply nextBegins next.token.text.text
          · simp [Token.isSpace, element]
          · simp [Token.opening?, element]
          · simp [text, element]
      | space =>
          left
          have filled := suits.1
          simp only [Suits, element] at filled
          obtain ⟨b, rest, spelled⟩ := List.exists_cons_of_ne_nil filled.1
          refine ⟨b, ?_, filled.2 b (by simp [spelled])⟩
          simp [render_cons, text, element, spelled]
      | «variable» reference =>
          have apart := (List.isChain_cons_cons.mp regular.words).1
          exact absurd ⟨isWord, by simp [Token.isVariable, element]⟩ apart
      | block reference delimiters =>
          right
          apply nextBegins delimiters.opener
          · simp [Token.isSpace, element]
          · simp [Token.opening?, element]
          · simp [text, element]
      | blocks reference delimiters =>
          have simple := regular.tail.simple next.token List.mem_cons_self
          simp only [Token.Simple, element] at simple

theorem fits_piece {strict : Bool} (regular : Token.Regular (piece.token :: pieces.map token))
    (written : Written whole start piece (render pieces))
    (suits : SuitsFrom whole start (piece :: pieces)) (earlier : List Share) :
    Share.Fits strict whole earlier
      ⟨piece.token, start, start + piece.text.length, piece.capture? start⟩
      (pieces.map token) := by
  cases element : piece.token.element with
  | literal => exact fits_literal written element
  | space =>
      apply fits_space written element suits.1
      exact solid_behind_space regular suits.2 (Token.isSpace_iff.mpr element)
  | «variable» reference =>
      apply fits_variable written element suits.1
      exact ended_behind_word regular written suits.2 (by simp [Token.isVariable, element])
  | block reference delimiters =>
      have simple := regular.simple piece.token List.mem_cons_self
      exact fits_block written element simple suits.1
  | blocks reference delimiters =>
      have simple := regular.simple piece.token List.mem_cons_self
      simp only [Token.Simple, element] at simple

/-- The chosen texts are a reading of the filled pattern. -/
theorem reading (strict : Bool) (regular : Token.Regular (pieces.map token))
    (inside : start ≤ whole.length) (written : whole.drop start = render pieces)
    (suits : SuitsFrom whole start pieces) (earlier : List Share) :
    Reading strict whole earlier (pieces.map token) start (shares start pieces)
      whole.length := by
  induction pieces generalizing start earlier with
  | nil =>
      have ends : start = whole.length :=
        Nat.le_antisymm inside (List.drop_eq_nil_iff.mp written)
      subst ends
      refine ⟨rfl, .nil, Nat.le_refl _, ?_⟩
      intro before share after same
      cases before <;> cases same
  | cons piece pieces ih =>
      have first : Written whole start piece (render pieces) := ⟨inside, by rw [written, render_cons]⟩
      apply Reading.cons (Nat.le_add_right _ _) (fits_piece regular first suits earlier)
      exact ih regular.tail first.stop_le first.rest_eq suits.2 _

end Filling

end Piece

namespace Pattern

/-- Matching recovers the texts a pattern was filled with.  Let the tokens of a compiled
pattern be simple, with no word right behind a word, and choose a suitable text for each.
The pattern then matches the whole of the text that these are written to, and captures
what was chosen, in order, under its name and at its place. -/
theorem matchAt?_recovers {source : Bytes} {symbols : Symbols} {pattern : Pattern}
    (compiled : compile source symbols = .ok pattern)
    (simple : ∀ token ∈ pattern.tokens, token.Simple)
    (words : pattern.tokens.IsChain fun first second =>
      ¬ (first.isVariable = true ∧ second.isVariable = true))
    {pieces : List Piece} (filling : Filling pattern.tokens pieces) (strict : Bool) :
    ∃ found, pattern.matchAt? strict (Piece.render pieces) 0 = some found ∧
      found.start = 0 ∧ found.stop = (Piece.render pieces).length ∧
      found.captures = (Piece.shares 0 pieces).filterMap Share.capture ∧
      found.captures.map (fun capture => (capture.name, capture.value.text)) =
        pieces.filterMap Piece.named? := by
  have wellFormed := wellFormed_of_compile compiled
  have regular : Token.Regular (pieces.map Piece.token) := by
    rw [filling.tokens]
    exact ⟨wellFormed, solid_of_compile compiled, simple, chain_of_compile compiled, words⟩
  have reading := Piece.reading strict regular (Nat.zero_le _) List.drop_zero filling.suits []
  rw [filling.tokens] at reading
  refine ⟨_, (matchFrom?_eq_some_iff wellFormed (Nat.zero_le _)).mpr ⟨_, _, reading, rfl⟩, rfl, ?_,
    rfl, Piece.map_captures 0 pieces⟩
  simp [Match.stop, Slice.stop, Slice.length, matchOf, Bytes.between_length]

end Pattern

section Decidable

instance (text : Bytes) (later : List Token) (place : Nat) :
    Decidable (NextBegins text later place) :=
  decidable_of_iff _ nextBegins_iff.symm

instance : (token : Token) → Decidable token.Simple
  | ⟨_, .literal, _⟩ | ⟨_, .space, _⟩ => .isTrue trivial
  | ⟨_, .variable reference, _⟩ => inferInstanceAs (Decidable (reference.optional = false))
  | ⟨_, .block _ _, _⟩ => @instDecidableAnd _ _ _ (Option.decidableExistsMem _)
  | ⟨_, .blocks _ _, _⟩ => .isFalse id

namespace Piece

instance (whole : Bytes) (start : Nat) (later : List Token) :
    (piece : Piece) → Decidable (piece.Suits whole start later)
  | ⟨⟨_, .literal, _⟩, _⟩ | ⟨⟨_, .blocks _ _, _⟩, _⟩ => .isTrue trivial
  | ⟨⟨_, .space, _⟩, value⟩ =>
      @instDecidableAnd (value ≠ []) _ _ (List.decidableBAll _ _)
  | ⟨⟨_, .variable _, _⟩, value⟩ =>
      @instDecidableAnd (value ≠ []) _ _ (@instDecidableAnd _ _ (List.decidableBAll _ _) _)
  | ⟨⟨_, .block _ _, _⟩, _⟩ => Option.decidableForallMem _

instance decidableSuitsFrom (whole : Bytes) :
    (start : Nat) → (pieces : List Piece) → Decidable (SuitsFrom whole start pieces)
  | _, [] => .isTrue trivial
  | start, piece :: pieces =>
      have := decidableSuitsFrom whole (start + piece.text.length) pieces
      inferInstanceAs (Decidable (_ ∧ _))

end Piece

end Decidable

namespace Pattern

/-- Texts for `$k: ${(}{)}v, $k`.  The second word has the opener and the literal before it
in it, which do not matter there. -/
def nestedPieces : List Piece :=
  (Token.link (tokensFrom .standard 0 (bytes "$k: $\x7b(\x7d\x7b)\x7dv, $k"))).zipWith Piece.mk
    [bytes "size", [], bytes " \t", bytes "f(x)(y)", [], bytes " ", bytes "a(,"]

theorem matchAt?_recovers_nested :
    ∃ pattern found, compile (bytes "$k: $\x7b(\x7d\x7b)\x7dv, $k") .standard = .ok pattern ∧
      Filling pattern.tokens nestedPieces ∧
      pattern.matchAt? false (bytes "size: \t(f(x)(y)), a(,") 0 = some found ∧
      found.captures.map (fun capture => (capture.name, capture.value.text)) =
        [(bytes "k", bytes "size"), (bytes "v", bytes "f(x)(y)"), (bytes "k", bytes "a(,")] := by
  have filling : Filling
      (Token.link (tokensFrom .standard 0 (bytes "$k: $\x7b(\x7d\x7b)\x7dv, $k"))) nestedPieces :=
    ⟨by decide +kernel, by decide +kernel⟩
  obtain ⟨found, matched, -, -, -, captures⟩ := matchAt?_recovers (compile_standard _)
    (by decide +kernel) (by decide +kernel) filling false
  have written : Piece.render nestedPieces = bytes "size: \t(f(x)(y)), a(," := by decide +kernel
  rw [written] at matched
  refine ⟨_, found, compile_standard _, filling, matched, captures.trans ?_⟩
  decide +kernel

end Pattern

end Stencil
