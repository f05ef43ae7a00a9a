import Stencil.Proofs.BalancedBlock

/-!
# A block on its own

The items of a text are told apart by what begins at a place, so a decision looks ahead.
It never looks further than the item that it decides for: an item that is there ends
before the text is cut off behind a later one, and what does not begin in the whole
text does not begin in a part of it.  So a closed block, cut out of its text, is read
as it was read there.
-/

namespace Stencil.Block

variable {text opener closer : Bytes}

/-- A text can be cut off behind any of its items. -/
theorem Cut.front {front back : List Item} (cut : Cut opener closer text (front ++ back)) :
    Cut opener closer (front.flatMap (Item.text opener closer)) front := by
  induction front generalizing text with
  | nil => exact .nil
  | cons item front ih =>
      have begins : (item :: front).flatMap (Item.text opener closer) <+: text := by
        rw [cut.text_eq, List.flatMap_append]
        exact List.prefix_append _ _
      cases cut with
      | opener nests later => exact .opener nests (ih later)
      | closer noOpener later =>
          exact .closer (fun nests opens => noOpener nests (opens.trans begins)) (ih later)
      | byte noOpener noCloser later =>
          exact .byte (fun nests opens => noOpener nests (opens.trans begins))
            (fun closes => noCloser (closes.trans begins)) (ih later)

/-- What it means that a block was found at an offset. -/
theorem of_extract {offset : Int} {block : Block}
    (extracted : extract text offset opener closer = .ok (.found block)) :
    ∃ start : Nat, offset = start ∧ start ≤ text.length ∧ opener ≠ [] ∧ closer ≠ [] ∧
      read? opener closer (text.drop start) = some block := by
  rw [extract.eq_def] at extracted
  split at extracted
  · cases extracted
  next usable =>
    simp only [Bool.or_eq_true, List.isEmpty_iff, not_or] at usable
    cases offset with
    | negSucc n => cases extracted
    | ofNat start =>
        simp only at extracted
        split at extracted
        · cases extracted
        next inside =>
          refine ⟨start, rfl, Nat.le_of_not_lt inside, usable.1, usable.2, ?_⟩
          cases found : read? opener closer (text.drop start) with
          | none => simp [found] at extracted
          | some other => simpa [found] using extracted

/-- The items of a closed block, and those behind it. -/
theorem exists_cut_of_closed {block : Block} (openerNonempty : opener ≠ [])
    (closerNonempty : closer ≠ []) (found : read? opener closer text = some block)
    (closed : block.closed = true) :
    ∃ before after, Cut opener closer (text.drop opener.length) (before ++ .closer :: after) ∧
      ClosesOff Item.opener .closer 0 before ∧
      block.inner = before.flatMap (Item.text opener closer) := by
  have begins : opener <+: text := ⟨_, (read?_append found).symm⟩
  obtain ⟨items, cut⟩ := exists_cut openerNonempty closerNonempty (text.drop opener.length)
  rw [read?_eq openerNonempty closerNonempty begins cut] at found
  cases split : Item.split? 0 items with
  | none =>
      rw [split] at found
      cases found
      cases closed
  | some parts =>
      obtain ⟨before, after⟩ := parts
      obtain ⟨rfl, closes⟩ := Item.split?_sound split
      rw [split] at found
      cases found
      exact ⟨before, after, cut, closes, rfl⟩

/-- A closed block is read from its own text, with nothing behind it. -/
theorem read?_isolated {block : Block} (openerNonempty : opener ≠ []) (closerNonempty : closer ≠ [])
    (found : read? opener closer text = some block) (closed : block.closed = true) :
    read? opener closer (opener ++ (block.inner ++ closer)) = some ⟨block.inner, true, []⟩ := by
  obtain ⟨before, after, cut, closes, inner⟩ :=
    exists_cut_of_closed openerNonempty closerNonempty found closed
  have alone : Cut opener closer (block.inner ++ closer) (before ++ [.closer]) := by
    rw [← List.singleton_append, ← List.append_assoc] at cut
    have front := cut.front
    rwa [List.flatMap_append, ← inner, List.flatMap_singleton] at front
  rw [read?_eq openerNonempty closerNonempty (List.prefix_append _ _) (by rwa [List.drop_left]),
    Item.split?_of_closesOff closes, inner]
  rfl

/-- A closed block stands on its own: the text from its opener to its end, looked at
alone, is a closed block with the same inside, and it ends where that text ends. -/
theorem extract_isolated {offset : Int} {block : Block}
    (extracted : extract text offset opener closer = .ok (.found block))
    (closed : block.closed = true) :
    ∃ start next : Nat, offset = start ∧
      next = start + opener.length + block.inner.length + closer.length ∧
      next ≤ text.length ∧ block.rest = text.drop next ∧
      extract ((text.take next).drop start) 0 opener closer =
        .ok (.found ⟨block.inner, true, []⟩) := by
  obtain ⟨start, place, inside, openerNonempty, closerNonempty, found⟩ := of_extract extracted
  have whole := read?_append found
  rw [ending, if_pos closed, ← List.append_assoc block.inner, ← List.append_assoc] at whole
  have size := congrArg List.length whole
  simp only [List.length_drop, List.length_append] at size
  have next : start + opener.length + block.inner.length + closer.length =
      start + (opener ++ (block.inner ++ closer)).length := by
    simp only [List.length_append]
    omega
  have alone : (text.take (start + (opener ++ (block.inner ++ closer)).length)).drop start =
      opener ++ (block.inner ++ closer) := by
    rw [List.drop_take, Nat.add_sub_cancel_left, whole, List.take_left]
  refine ⟨start, _, place, rfl, by omega, ?_, ?_⟩
  · rw [next, ← List.drop_drop, whole, List.drop_left]
  · rw [next, alone]
    have again := read?_isolated openerNonempty closerNonempty found closed
    rw [← List.drop_zero (l := opener ++ (block.inner ++ closer))] at again
    exact extract_of_read? openerNonempty closerNonempty (Nat.zero_le _) again

/-- With a closer that the opener begins with. -/
theorem extract_isolated_overlapping :
    extract (bytes "-<<a<<b<c< <") 1 (bytes "<<") (bytes "<") =
        .ok (.found ⟨bytes "a<<b<c", true, bytes " <"⟩) ∧
      extract (bytes "<<a<<b<c<") 0 (bytes "<<") (bytes "<") =
        .ok (.found ⟨bytes "a<<b<c", true, []⟩) := by
  have cut : Cut (bytes "<<") (bytes "<") (bytes "a<<b<c< <")
      [.byte (byte 'a'), .opener, .byte (byte 'b'), .closer, .byte (byte 'c'), .closer,
        .byte (byte ' '), .closer] :=
    .byte (by decide) (by decide) <| .opener (by decide) <| .byte (by decide) (by decide) <|
      .closer (by decide) <| .byte (by decide) (by decide) <| .closer (by decide) <|
      .byte (by decide) (by decide) <| .closer (by decide) .nil
  have read : read? (bytes "<<") (bytes "<") ((bytes "-<<a<<b<c< <").drop 1) =
      some ⟨bytes "a<<b<c", true, bytes " <"⟩ :=
    (read?_eq (by decide) (by decide) (by decide) cut).trans rfl
  have found : extract (bytes "-<<a<<b<c< <") 1 (bytes "<<") (bytes "<") =
      .ok (.found ⟨bytes "a<<b<c", true, bytes " <"⟩) :=
    extract_of_read? (by decide) (by decide) (by decide) read
  obtain ⟨start, next, place, rfl, -, -, alone⟩ := extract_isolated found rfl
  obtain rfl : start = 1 := (Int.ofNat.inj place).symm
  exact ⟨found, alone⟩

end Stencil.Block
