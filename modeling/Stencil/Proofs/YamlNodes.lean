import Stencil.Yaml.Node

/-!
# Tokens that are read as nodes

Without anchors, aliases and tags, nodes are read one after the other: what the
tokens of a node stand for does not depend on what follows them.  So a mapping is
read from the tokens of its values, and a sequence from those of its items.
-/

namespace Stencil.Yaml

/-- A token that begins a node without properties. -/
def Token.beginsNode : Token → Bool
  | .scalar _ _ | .flowSequenceStart | .sequenceStart | .mappingStart => true
  | _ => false

/-- Tokens that are read as a node wherever one may stand. -/
structure ReadAs (tokens : List Token) (node : Node) : Prop where
  begins : ∃ first later, tokens = first :: later ∧ first.beginsNode = true
  reads : ∀ {budget : Nat} (indentless : Bool) (stream : Stream) (behind : List Token),
    tokens.length ≤ budget →
      node? budget true indentless { stream with tokens := tokens ++ behind } =
        some (node, { stream with tokens := behind })

section Nodes

variable {stream : Stream} {behind : List Token} {budget : Nat}

theorem readAs_scalar (plain : Bool) (content : List Char) :
    ReadAs [.scalar plain content] (.scalar (Tag.ofScalar plain content) content) := by
  refine ⟨⟨_, _, rfl, rfl⟩, ?_⟩
  intro budget indentless stream behind enough
  obtain ⟨less, rfl⟩ : ∃ less, budget = less + 1 := Nat.exists_eq_add_one.mpr enough
  rfl

theorem readAs_empty : ReadAs [.flowSequenceStart, .flowSequenceEnd] (.sequence []) := by
  refine ⟨⟨_, _, rfl, rfl⟩, ?_⟩
  intro budget indentless stream behind enough
  obtain ⟨less, rfl⟩ : ∃ less, budget = less + 2 := Nat.exists_eq_add_of_le' enough
  rfl

/-- The tokens of entries with plain keys. -/
def entryTokens (entries : List (List Char × List Token × Node)) : List Token :=
  entries.flatMap fun (key, value, _) => .key :: .scalar true key :: .value :: value

/-- Entries with plain keys. -/
def entryNodes (entries : List (List Char × List Token × Node)) : List (Node × Node) :=
  entries.map fun (key, _, node) => (.scalar (Tag.ofScalar true key) key, node)

theorem blockEntries?_cons {afterKey afterValue last : Stream} {first second : Token}
    {key value : Node} {entries : List (Node × Node)} (opens : stream.peek? = some .key)
    (keyBegins : stream.skip.peek? = some first) (keyIsNode : first.beginsNode = true)
    (readKey : node? budget true true stream.skip = some (key, afterKey))
    (colon : afterKey.peek? = some .value) (valueBegins : afterKey.skip.peek? = some second)
    (valueIsNode : second.beginsNode = true)
    (readValue : node? budget true true afterKey.skip = some (value, afterValue))
    (readLater : blockEntries? budget afterValue = some (entries, last)) :
    blockEntries? (budget + 1) stream = some ((key, value) :: entries, last) := by
  rw [blockEntries?]
  simp only [opens, keyBegins, Option.bind_eq_bind, Option.bind_some]
  cases first <;> first
    | exact absurd keyIsNode Bool.false_ne_true
    | simp only [readKey, colon, valueBegins, Option.bind_some]
      cases second <;> first
        | exact absurd valueIsNode Bool.false_ne_true
        | simp only [readValue, readLater, Option.bind_some]
          rfl

theorem blockEntries?_eq {entries : List (List Char × List Token × Node)}
    (values : ∀ entry ∈ entries, ReadAs entry.2.1 entry.2.2)
    (enough : (entryTokens entries).length < budget) :
    blockEntries? budget { stream with tokens := entryTokens entries ++ .blockEnd :: behind } =
      some (entryNodes entries, { stream with tokens := behind }) := by
  induction entries generalizing budget with
  | nil =>
      obtain ⟨less, rfl⟩ : ∃ less, budget = less + 1 :=
        Nat.exists_eq_add_one.mpr (Nat.zero_lt_of_lt enough)
      rfl
  | cons entry entries ih =>
      obtain ⟨key, value, node⟩ := entry
      obtain ⟨first, later⟩ := List.forall_mem_cons.mp values
      obtain ⟨less, rfl⟩ : ∃ less, budget = less + 1 :=
        Nat.exists_eq_add_one.mpr (Nat.zero_lt_of_lt enough)
      have shape : entryTokens ((key, value, node) :: entries) ++ .blockEnd :: behind =
          .key :: .scalar true key :: .value ::
            (value ++ (entryTokens entries ++ .blockEnd :: behind)) := by
        simp [entryTokens]
      have bound : value.length + (entryTokens entries).length + 3 ≤ less := by
        simp [entryTokens] at enough ⊢
        omega
      have readKey := (readAs_scalar true key).reads true stream
        (.value :: (value ++ (entryTokens entries ++ .blockEnd :: behind)))
        (show 1 ≤ less by omega)
      have readValue := first.reads true stream (entryTokens entries ++ .blockEnd :: behind)
        (show value.length ≤ less by omega)
      have readLater := ih later (show (entryTokens entries).length < less by omega)
      obtain ⟨token, tokens, rfl, isNode⟩ := first.begins
      rw [shape]
      refine blockEntries?_cons rfl rfl rfl readKey rfl ?_ isNode readValue readLater
      cases token <;> first | rfl | exact absurd isNode Bool.false_ne_true

theorem node?_mapping {indentless : Bool} {tokens : List Token} {entries : List (Node × Node)}
    {last : Stream}
    (reads : blockEntries? budget { stream with tokens } = some (entries, last)) :
    node? (budget + 1) true indentless { stream with tokens := .mappingStart :: tokens } =
      some (.mapping false entries, last) := by
  have mapped : node?.mapping false (blockEntries? budget { stream with tokens }) =
      some (.mapping false entries, last) := by
    rw [reads]
    rfl
  rw [node?]
  exact congrArg (Option.bind · _) mapped

/-- A mapping is read from the tokens of its values. -/
theorem readAs_mapping {entries : List (List Char × List Token × Node)}
    (values : ∀ entry ∈ entries, ReadAs entry.2.1 entry.2.2) :
    ReadAs (.mappingStart :: (entryTokens entries ++ [.blockEnd]))
      (.mapping false (entryNodes entries)) := by
  refine ⟨⟨_, _, rfl, rfl⟩, ?_⟩
  intro budget indentless stream behind enough
  simp only [List.length_cons, List.length_append, List.length_nil] at enough
  obtain ⟨less, rfl⟩ : ∃ less, budget = less + 1 := Nat.exists_eq_add_one.mpr (by omega)
  rw [List.cons_append, List.append_assoc, List.singleton_append]
  exact node?_mapping (blockEntries?_eq values (by omega))

/-- The tokens of items. -/
def itemTokens (items : List (List Token × Node)) : List Token :=
  items.flatMap fun (tokens, _) => .item :: tokens

theorem blockItems?_cons {afterItem last : Stream} {first : Token} {item : Node}
    {items : List Node} (opens : stream.peek? = some .item)
    (itemBegins : stream.skip.peek? = some first) (isNode : first.beginsNode = true)
    (readItem : node? budget true false stream.skip = some (item, afterItem))
    (readLater : blockItems? budget afterItem = some (items, last)) :
    blockItems? (budget + 1) stream = some (item :: items, last) := by
  rw [blockItems?]
  simp only [opens, itemBegins, Option.bind_eq_bind, Option.bind_some]
  cases first <;> first
    | exact absurd isNode Bool.false_ne_true
    | simp only [readItem, readLater, Option.bind_some]
      rfl

theorem blockItems?_eq {items : List (List Token × Node)}
    (values : ∀ item ∈ items, ReadAs item.1 item.2)
    (enough : (itemTokens items).length < budget) :
    blockItems? budget { stream with tokens := itemTokens items ++ .blockEnd :: behind } =
      some (items.map (·.2), { stream with tokens := behind }) := by
  induction items generalizing budget with
  | nil =>
      obtain ⟨less, rfl⟩ : ∃ less, budget = less + 1 :=
        Nat.exists_eq_add_one.mpr (Nat.zero_lt_of_lt enough)
      rfl
  | cons item items ih =>
      obtain ⟨tokens, node⟩ := item
      obtain ⟨first, later⟩ := List.forall_mem_cons.mp values
      obtain ⟨less, rfl⟩ : ∃ less, budget = less + 1 :=
        Nat.exists_eq_add_one.mpr (Nat.zero_lt_of_lt enough)
      have shape : itemTokens ((tokens, node) :: items) ++ .blockEnd :: behind =
          .item :: (tokens ++ (itemTokens items ++ .blockEnd :: behind)) := by
        simp [itemTokens]
      have bound : tokens.length + (itemTokens items).length + 1 ≤ less := by
        simp [itemTokens] at enough ⊢
        omega
      have readItem := first.reads false stream (itemTokens items ++ .blockEnd :: behind)
        (show tokens.length ≤ less by omega)
      have readLater := ih later (show (itemTokens items).length < less by omega)
      obtain ⟨token, tokens, rfl, isNode⟩ := first.begins
      rw [shape]
      refine blockItems?_cons rfl ?_ isNode readItem readLater
      cases token <;> first | rfl | exact absurd isNode Bool.false_ne_true

/-- A sequence is read from the tokens of its items. -/
theorem readAs_sequence {items : List (List Token × Node)}
    (values : ∀ item ∈ items, ReadAs item.1 item.2) :
    ReadAs (.sequenceStart :: (itemTokens items ++ [.blockEnd])) (.sequence (items.map (·.2))) := by
  refine ⟨⟨_, _, rfl, rfl⟩, ?_⟩
  intro budget indentless stream behind enough
  simp only [List.length_cons, List.length_append, List.length_nil] at enough
  obtain ⟨less, rfl⟩ : ∃ less, budget = less + 1 := Nat.exists_eq_add_one.mpr (by omega)
  have read : blockItems? less { stream with tokens := itemTokens items ++ .blockEnd :: behind } =
      _ := blockItems?_eq values (by omega)
  have mapped : node?.sequence (blockItems? less
      { stream with tokens := itemTokens items ++ .blockEnd :: behind }) =
      some (.sequence (items.map (·.2)), { stream with tokens := behind }) := by
    rw [read]
    rfl
  rw [List.cons_append, List.append_assoc, List.singleton_append, node?]
  exact congrArg (Option.bind · _) mapped

/-- A stream with one node. -/
theorem document?_eq {tokens : List Token} {node : Node} (readAs : ReadAs tokens node) :
    document? (tokens ++ [.streamEnd]) = some (some { root := node, anchored := [] }) := by
  obtain ⟨first, later, rfl, isNode⟩ := readAs.begins
  have read := readAs.reads false { tokens := [], handles := standardHandles } [.streamEnd]
    (show (first :: later).length ≤ 2 * (first :: later ++ [Token.streamEnd]).length + 4 by
      simp only [List.length_append, List.length_cons]
      omega)
  rw [document?]
  cases first <;> first
    | exact absurd isNode Bool.false_ne_true
    | simp only [List.cons_append] at read ⊢
      simp only [Stream.peek?, Option.bind_eq_bind, Option.bind_some, List.nil_append, read]
      rfl

end Nodes

end Stencil.Yaml
