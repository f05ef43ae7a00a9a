import Stencil.Pattern.Compile

/-!
# Tokens of a compiled pattern

A compiled pattern has no empty literal and no empty delimiter.  Recording the
look-ahead changes neither the text nor the element of a token, so both facts
are proved of the tokens as they are cut.
-/

namespace Stencil

/-- A literal has a text, and a block has both delimiters. -/
def Token.WellFormed (token : Token) : Prop :=
  match token.element with
  | .literal => token.text.text ≠ []
  | .space | .variable _ => True
  | .block _ delimiters | .blocks _ delimiters =>
      delimiters.opener ≠ [] ∧ delimiters.closer ≠ []

theorem Token.WellFormed.opening_ne_nil {token : Token} {opening : Bytes}
    (wellFormed : token.WellFormed) (begins : token.opening? = some opening) :
    opening ≠ [] := by
  unfold Token.WellFormed at wellFormed
  unfold Token.opening? at begins
  split at wellFormed
  · next element =>
      simp only [element] at begins
      cases begins
      exact wellFormed
  · next element =>
      simp only [element] at begins
      cases begins
  · next element =>
      simp only [element] at begins
      cases begins
  · next element =>
      simp only [element] at begins
      cases begins
      exact wellFormed.1
  · next element =>
      simp only [element] at begins
      cases begins
      exact wellFormed.1

namespace Token

theorem map_linkFrom (index : Nat) (tokens : List Token) :
    (linkFrom index tokens).1.map (fun token => (token.text, token.element)) =
      tokens.map fun token => (token.text, token.element) := by
  induction tokens generalizing index with
  | nil => rfl
  | cons token tokens ih => simp [linkFrom, ih (index + 1)]

theorem exists_of_mem_link {tokens : List Token} {token : Token}
    (member : token ∈ link tokens) :
    ∃ original ∈ tokens, original.text = token.text ∧ original.element = token.element := by
  have listed : (token.text, token.element) ∈
      tokens.map fun token => (token.text, token.element) := by
    rw [← map_linkFrom 0 tokens]
    exact List.mem_map.mpr ⟨token, member, rfl⟩
  obtain ⟨original, originalMember, same⟩ := List.mem_map.mp listed
  rw [Prod.mk.injEq] at same
  exact ⟨original, originalMember, same⟩

end Token

namespace Pattern

theorem compile_eq_ok_iff {source : Bytes} {symbols : Symbols} {pattern : Pattern} :
    compile source symbols = .ok pattern ↔
      symbols.Valid ∧
        pattern = ⟨source, symbols, Token.link (tokensFrom symbols 0 source)⟩ := by
  unfold compile
  rw [← Symbols.fault?_eq_none_iff]
  cases symbols.fault? with
  | none =>
      simp only [Except.ok.injEq, true_and]
      exact eq_comm
  | some fault => simp

theorem compile_standard (source : Bytes) :
    compile source .standard =
      .ok ⟨source, .standard, Token.link (tokensFrom .standard 0 source)⟩ :=
  rfl

/-- A group ends at a closer or at the end of the pattern. -/
theorem groupInside_rest (closer text : Bytes) :
    (groupInside closer text).2 = [] ∨ closer <+: (groupInside closer text).2 := by
  fun_induction groupInside closer text with
  | case1 => exact .inl rfl
  | case2 b text begins => exact .inr (List.isPrefixOf_iff_prefix.mp begins)
  | case3 b text _ inside rest split ih =>
      rw [split] at ih
      exact ih

/-- A delimiter group leaves the default in force when it is empty. -/
theorem delimiters?_ne_nil {symbols : Symbols} {cursor rest : Cursor}
    {delimiters : Delimiters} (valid : symbols.Valid)
    (found : delimiters? symbols cursor = some (delimiters, rest)) :
    delimiters.opener ≠ [] ∧ delimiters.closer ≠ [] := by
  unfold delimiters? at found
  obtain ⟨⟨first, afterFirst⟩, _, pair⟩ := Option.map_eq_some_iff.mp found
  rw [Prod.mk.injEq] at pair
  obtain ⟨rfl, _⟩ := pair
  dsimp only
  constructor
  · split
    · exact valid.opener
    · next written => simpa using written
  · split
    · split
      · exact valid.closer
      · next written => simpa using written
    · exact valid.closer

/-- What is read behind a sigil: groups, behind the second sigil if it is
doubled, and a name; or a name alone. -/
theorem element_cases (symbols : Symbols) (cursor : Cursor) :
    (∃ start delimiters afterGroups,
      (start = cursor ∨
        symbols.sigil <+: cursor.rest ∧ start = cursor.advance symbols.sigil.length) ∧
      delimiters? symbols start = some (delimiters, afterGroups) ∧
      (element symbols cursor).2 = (reference afterGroups).2 ∧
      ((element symbols cursor).1 = .block (reference afterGroups).1 delimiters ∨
        (element symbols cursor).1 = .blocks (reference afterGroups).1 delimiters)) ∨
    element symbols cursor = (.variable (reference cursor).1, (reference cursor).2) := by
  unfold element
  dsimp only
  split
  · next delimiters afterGroups found =>
      left
      refine ⟨_, delimiters, afterGroups, ?_, found, rfl, ?_⟩
      · split
        · next doubled =>
            rw [Bool.and_eq_true, List.isPrefixOf_iff_prefix] at doubled
            exact .inr ⟨doubled.1, rfl⟩
        · exact .inl rfl
      · dsimp only
        split
        · exact .inr rfl
        · exact .inl rfl
  · exact .inr rfl

theorem element_wellFormed {symbols : Symbols} (valid : symbols.Valid) (text : Slice)
    (cursor : Cursor) : Token.WellFormed ⟨text, (element symbols cursor).1, {}⟩ := by
  rcases element_cases symbols cursor with
    ⟨start, delimiters, afterGroups, _, found, _, block | blocks⟩ | named
  · simpa [Token.WellFormed, block] using delimiters?_ne_nil valid found
  · simpa [Token.WellFormed, blocks] using delimiters?_ne_nil valid found
  · simp [Token.WellFormed, named]

theorem tokensFrom_wellFormed {symbols : Symbols} (valid : symbols.Valid) (offset : Nat)
    (text : Bytes) : ∀ token ∈ tokensFrom symbols offset text, token.WellFormed := by
  fun_induction tokensFrom symbols offset text with
  | case1 => simp
  | case2 offset b tail blank run ih =>
      intro token member
      rcases List.mem_cons.mp member with rfl | later
      · trivial
      · exact ih token later
  | case3 offset b tail notBlank begins read ih =>
      intro token member
      rcases List.mem_cons.mp member with rfl | later
      · exact element_wellFormed valid _ _
      · exact ih token later
  | case4 offset b tail notBlank noSigil run ih =>
      intro token member
      rcases List.mem_cons.mp member with rfl | later
      · exact List.cons_ne_nil _ _
      · exact ih token later

theorem wellFormed_of_compile {source : Bytes} {symbols : Symbols} {pattern : Pattern}
    (compiled : compile source symbols = .ok pattern) :
    ∀ token ∈ pattern.tokens, token.WellFormed := by
  obtain ⟨valid, rfl⟩ := compile_eq_ok_iff.mp compiled
  intro token member
  obtain ⟨original, originalMember, text, element⟩ := Token.exists_of_mem_link member
  have wellFormed := tokensFrom_wellFormed valid 0 source original originalMember
  simpa only [Token.WellFormed, text, element] using wellFormed

end Pattern

end Stencil
