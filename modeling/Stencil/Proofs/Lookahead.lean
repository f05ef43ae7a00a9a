import Stencil.Proofs.Tokens

/-!
# What look-ahead records

`link` passes over the tokens once, from the last to the first, and carries two facts
with it.  Here they are stated from the front: the look-ahead of a token is read off the
tokens behind it.  Since it is read off their elements only, recording it once more
changes nothing.
-/

namespace Stencil

/-- The look-ahead of a token that the given tokens follow, the first of them with the
given index. -/
def Lookahead.ofLater (index : Nat) (later : List Token) : Lookahead where
  next := (later.findIdx? fun token => !token.isSpace).map (· + index)
  allOptional := Token.allOptional later

/-- What the look-ahead of the token at an index is to tell: the nearest later token that
is not white space, and whether all such tokens are optional. -/
structure Lookahead.Tells (tokens : List Token) (index : Nat) (ahead : Lookahead) : Prop where
  next : ∀ place, ahead.next = some place ↔
    index < place ∧ (∃ token, tokens[place]? = some token ∧ token.isSpace = false) ∧
      ∀ between token, index < between → between < place → tokens[between]? = some token →
        token.isSpace = true
  none : ahead.next = none ↔
    ∀ place token, index < place → tokens[place]? = some token → token.isSpace = true
  allOptional : ahead.allOptional = true ↔
    ∀ place token, index < place → tokens[place]? = some token → token.isSpace = false →
      token.optional = true

namespace Token

theorem linkFrom_cons (index : Nat) (token : Token) (tokens : List Token) :
    linkFrom index (token :: tokens) =
      ({ token with ahead := (linkFrom (index + 1) tokens).2 } :: (linkFrom (index + 1) tokens).1,
        if token.isSpace then (linkFrom (index + 1) tokens).2
        else ⟨some index, (linkFrom (index + 1) tokens).2.allOptional && token.optional⟩) :=
  rfl

theorem linkFrom_ahead (index : Nat) (tokens : List Token) :
    (linkFrom index tokens).2 = .ofLater index tokens := by
  induction tokens generalizing index with
  | nil => rfl
  | cons token tokens ih =>
      rw [linkFrom_cons, ih]
      simp only [Lookahead.ofLater, allOptional, List.findIdx?_cons, List.all_cons]
      cases token.isSpace with
      | true => simp [Function.comp_def, Nat.add_assoc, Nat.add_comm 1]
      | false => simp [Bool.and_comm]

/-- Only the look-ahead of a token changes, to what the tokens behind it tell. -/
theorem getElem?_linkFrom (start : Nat) (tokens : List Token) (index : Nat) :
    (linkFrom start tokens).1[index]? = tokens[index]?.map fun token =>
      { token with ahead := .ofLater (start + index + 1) (tokens.drop (index + 1)) } := by
  induction tokens generalizing start index with
  | nil => rfl
  | cons token tokens ih =>
      cases index with
      | zero => simp [linkFrom_cons, linkFrom_ahead]
      | succ index => simp [linkFrom_cons, ih, Nat.add_assoc, Nat.add_comm 1]

/-- The look-ahead does not depend on a look-ahead recorded before. -/
theorem linkFrom_linkFrom (index : Nat) (tokens : List Token) :
    linkFrom index (linkFrom index tokens).1 = linkFrom index tokens := by
  induction tokens generalizing index with
  | nil => rfl
  | cons token tokens ih =>
      rw [linkFrom_cons, linkFrom_cons, ih]
      rfl

end Token

namespace Lookahead

/-- The tokens behind an index are those of what remains behind it. -/
theorem forall_later_iff {tokens : List Token} {index : Nat} {holds : Token → Prop} :
    (∀ place token, index < place → tokens[place]? = some token → holds token) ↔
      ∀ token ∈ tokens.drop (index + 1), holds token := by
  constructor
  · intro all token member
    obtain ⟨gap, found⟩ := List.mem_iff_getElem?.mp member
    rw [List.getElem?_drop] at found
    exact all _ token (by omega) found
  · intro all place token behind found
    apply all token
    apply List.mem_iff_getElem?.mpr
    refine ⟨place - (index + 1), ?_⟩
    rw [List.getElem?_drop, Nat.add_sub_cancel' behind]
    exact found

theorem findIdx?_significant_iff {later : List Token} {gap : Nat} :
    (later.findIdx? fun token => !token.isSpace) = some gap ↔
      (∃ token, later[gap]? = some token ∧ token.isSpace = false) ∧
        ∀ between token, between < gap → later[between]? = some token → token.isSpace = true := by
  rw [List.findIdx?_eq_some_iff_getElem]
  constructor
  · rintro ⟨inside, significant, before⟩
    refine ⟨⟨later[gap], List.getElem?_eq_getElem inside, by simpa using significant⟩, ?_⟩
    intro between token nearer found
    obtain ⟨_, rfl⟩ := List.getElem?_eq_some_iff.mp found
    simpa using before between nearer
  · rintro ⟨⟨token, found, significant⟩, before⟩
    obtain ⟨inside, rfl⟩ := List.getElem?_eq_some_iff.mp found
    refine ⟨inside, by simpa using significant, ?_⟩
    intro between nearer
    simpa using before between _ nearer (List.getElem?_eq_getElem (Nat.lt_trans nearer inside))

theorem ofLater_tells (tokens : List Token) (index : Nat) :
    Tells tokens index (.ofLater (index + 1) (tokens.drop (index + 1))) where
  next := by
    intro place
    simp only [ofLater, Option.map_eq_some_iff, findIdx?_significant_iff, List.getElem?_drop]
    constructor
    · rintro ⟨gap, ⟨nearest, before⟩, rfl⟩
      rw [Nat.add_comm (index + 1)] at nearest
      refine ⟨by omega, nearest, ?_⟩
      intro between token behind nearer found
      rw [← Nat.add_sub_cancel' behind] at found
      exact before _ token (by omega) found
    · rintro ⟨behind, nearest, before⟩
      refine ⟨place - (index + 1), ⟨?_, ?_⟩, Nat.sub_add_cancel behind⟩
      · rw [Nat.add_sub_cancel' behind]
        exact nearest
      · intro between token nearer found
        exact before _ token (by omega) (by omega) found
  none := by
    rw [ofLater, Option.map_eq_none_iff, List.findIdx?_eq_none_iff, forall_later_iff]
    simp
  allOptional := by
    have each : ∀ token : Token, (token.isSpace || token.optional) = true ↔
        (token.isSpace = false → token.optional = true) := by
      intro token
      cases token.isSpace <;> simp
    rw [ofLater, Token.allOptional, List.all_eq_true, forall_later_iff]
    simp only [each]

end Lookahead

namespace Token

/-- Recording the look-ahead keeps the number of tokens.  In every token it changes the
look-ahead only, to the nearest later significant token and to whether all later
significant tokens are optional.  Recording it once more changes nothing. -/
theorem link_exact (tokens : List Token) :
    (link tokens).length = tokens.length ∧
      (∀ (index : Nat) (token : Token), tokens[index]? = some token →
        ∃ ahead, (link tokens)[index]? = some { token with ahead } ∧ ahead.Tells tokens index) ∧
      link (link tokens) = link tokens := by
  refine ⟨?_, ?_, congrArg Prod.fst (linkFrom_linkFrom 0 tokens)⟩
  · have kept := congrArg List.length (map_linkFrom 0 tokens)
    rwa [List.length_map, List.length_map] at kept
  · intro index token found
    refine ⟨.ofLater (index + 1) (tokens.drop (index + 1)), ?_,
      Lookahead.ofLater_tells tokens index⟩
    rw [link, getElem?_linkFrom, found, Nat.zero_add]
    rfl

/-- A word, white space and a variable that can be left out. -/
def fewTokens : List Token :=
  [⟨⟨0, bytes "a"⟩, .literal, {}⟩, ⟨⟨1, bytes " "⟩, .space, {}⟩,
    ⟨⟨2, bytes "$b?"⟩, .variable ⟨⟨3, bytes "b"⟩, true⟩, {}⟩]

/-- The white space is passed over, and the word itself, which has to be there, is not
among the tokens behind it. -/
theorem link_exact_space :
    fewTokens[0]? = some ⟨⟨0, bytes "a"⟩, .literal, {}⟩ ∧
      (link fewTokens)[0]? = some ⟨⟨0, bytes "a"⟩, .literal, ⟨some 2, true⟩⟩ := by
  refine ⟨rfl, ?_⟩
  obtain ⟨-, each, -⟩ := link_exact fewTokens
  obtain ⟨⟨next, allOptional⟩, linked, tells⟩ := each 0 _ rfl
  have nearest : next = some 2 := by
    refine (tells.next 2).mpr ⟨by decide, ⟨_, rfl, rfl⟩, ?_⟩
    intro between token behind nearer found
    obtain rfl : between = 1 := by omega
    cases found
    rfl
  have optional : allOptional = true := by
    rw [tells.allOptional, Lookahead.forall_later_iff]
    decide
  rw [linked, nearest, optional]

end Token

end Stencil
