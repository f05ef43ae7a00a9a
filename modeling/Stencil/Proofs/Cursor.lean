import Stencil.Text.Slice

/-!
# Places in a text

A reader splits what follows a cursor into a part and a rest.  This module turns
such a split into offsets of the whole text: where the part lies and where the
cursor stands behind it.  `SpaceRun` describes a run of white space by its two
ends, and `skipSpace` is the move over such a run.
-/

namespace Stencil

namespace Bytes

/-- The text from one offset to another. -/
def between (text : Bytes) (start stop : Nat) : Bytes :=
  (text.drop start).take (stop - start)

@[simp] theorem between_self (text : Bytes) (place : Nat) : text.between place place = [] := by
  simp [between]

theorem length_between {text : Bytes} {start stop : Nat} (inside : stop ≤ text.length) :
    (text.between start stop).length = stop - start := by
  simp only [between, List.length_take, List.length_drop]
  omega

theorem between_append_drop {text : Bytes} {start stop : Nat} (ordered : start ≤ stop) :
    text.between start stop ++ text.drop stop = text.drop start := by
  have sum : start + (stop - start) = stop := by omega
  rw [between, ← sum, ← List.drop_drop, Nat.add_sub_cancel_left]
  exact List.take_append_drop (stop - start) (text.drop start)

theorem between_length (text : Bytes) (start : Nat) :
    text.between start text.length = text.drop start := by
  rw [between, List.take_of_length_le (by simp)]

theorem between_append_between {text : Bytes} {start middle stop : Nat}
    (first : start ≤ middle) (second : middle ≤ stop) :
    text.between start middle ++ text.between middle stop = text.between start stop := by
  have sum : stop - start = (middle - start) + (stop - middle) := by omega
  have offset : start + (middle - start) = middle := by omega
  simp only [between]
  rw [sum, List.take_add, List.drop_drop, offset]

/-- A split of what follows an offset names the offset behind the first part. -/
theorem drop_eq_append {text part rest : Bytes} {start : Nat}
    (split : text.drop start = part ++ rest) :
    part = text.between start (start + part.length) ∧
      rest = text.drop (start + part.length) := by
  constructor
  · rw [between, split, Nat.add_sub_cancel_left, List.take_left]
  · rw [← List.drop_drop, split, List.drop_left]

theorem stop_le_of_split {text part rest : Bytes} {start : Nat} (inside : start ≤ text.length)
    (split : text.drop start = part ++ rest) : start + part.length ≤ text.length := by
  have lengths := congrArg List.length split
  simp only [List.length_drop, List.length_append] at lengths
  omega

theorem drop_ne_nil {text : Bytes} {place : Nat} (inside : place < text.length) :
    text.drop place ≠ [] := by
  intro empty
  have short := List.drop_eq_nil_iff.mp empty
  omega

/-- A run of bytes ends where it cannot go on. -/
theorem span_append {p : UInt8 → Bool} {part rest : Bytes} (inside : ∀ b ∈ part, p b = true)
    (stops : ∀ b ∈ rest.head?, p b = false) :
    (part ++ rest).takeWhile p = part ∧ (part ++ rest).dropWhile p = rest := by
  rw [List.takeWhile_append_of_pos inside, List.dropWhile_append_of_pos inside]
  cases rest with
  | nil => simp
  | cons b rest => simp [stops b rfl]

theorem prefix_drop_iff {text part : Bytes} {start stop : Nat} (ordered : start ≤ stop)
    (inside : stop ≤ text.length) :
    text.between start stop = part ↔
      part <+: text.drop start ∧ stop = start + part.length := by
  constructor
  · rintro rfl
    refine ⟨⟨text.drop stop, between_append_drop ordered⟩, ?_⟩
    rw [length_between inside]
    omega
  · rintro ⟨⟨rest, split⟩, rfl⟩
    exact (drop_eq_append split.symm).1.symm

end Bytes

theorem drop_eq_cons {text rest : Bytes} {b : UInt8} {place : Nat}
    (split : text.drop place = b :: rest) :
    text[place]? = some b ∧ text.drop (place + 1) = rest ∧ place < text.length := by
  refine ⟨?_, ?_, ?_⟩
  · rw [← List.head?_drop, split]
    rfl
  · rw [← List.drop_drop, split]
    rfl
  · have lengths := congrArg List.length split
    simp only [List.length_drop, List.length_cons] at lengths
    omega

namespace Cursor

@[simp] theorem inside_rest (text : Bytes) (start : Nat) :
    (inside text start).rest = text.drop start :=
  rfl

@[simp] theorem inside_offset (text : Bytes) (start : Nat) :
    (inside text start).offset = start :=
  rfl

theorem inside_advance (text : Bytes) (start n : Nat) :
    (inside text start).advance n = inside text (start + n) := by
  simp [inside, advance, List.drop_drop]

theorem inside_moveTo {text part rest : Bytes} {start : Nat}
    (split : text.drop start = part ++ rest) :
    (inside text start).moveTo rest = inside text (start + part.length) := by
  obtain ⟨_, rfl⟩ := Bytes.drop_eq_append split
  simp only [inside, moveTo, split, List.length_append]
  congr 1
  omega

theorem inside_sliceTo {text part rest : Bytes} {start : Nat}
    (split : text.drop start = part ++ rest) :
    (inside text start).sliceTo rest = ⟨start, part⟩ := by
  simp [inside, sliceTo, split]

theorem inside_moveTo_drop {text : Bytes} {start stop : Nat} (ordered : start ≤ stop)
    (within : stop ≤ text.length) :
    (inside text start).moveTo (text.drop stop) = inside text stop := by
  rw [inside_moveTo (Bytes.between_append_drop ordered).symm, Bytes.length_between within,
    Nat.add_sub_of_le ordered]

theorem inside_sliceTo_drop {text : Bytes} {start stop : Nat} (ordered : start ≤ stop) :
    (inside text start).sliceTo (text.drop stop) = ⟨start, text.between start stop⟩ :=
  inside_sliceTo (Bytes.between_append_drop ordered).symm

theorem moveTo_append (start : Nat) (part rest : Bytes) :
    moveTo ⟨start, part ++ rest⟩ rest = ⟨start + part.length, rest⟩ := by
  simp [moveTo]

theorem sliceTo_append (start : Nat) (part rest : Bytes) :
    sliceTo ⟨start, part ++ rest⟩ rest = ⟨start, part⟩ := by
  simp [sliceTo]

theorem inside_injective {text : Bytes} {first second : Nat}
    (same : inside text first = inside text second) : first = second := by
  simpa [inside] using congrArg offset same

end Cursor

/-- The white space from `start` to `stop`, as long as it can be. -/
structure SpaceRun (text : Bytes) (start stop : Nat) : Prop where
  ordered : start ≤ stop
  inside : stop ≤ text.length
  space : ∀ b ∈ text.between start stop, Bytes.isSpace b = true
  maximal : ∀ b ∈ text[stop]?, Bytes.isSpace b = false

theorem spaceRun_takeWhile {text : Bytes} {start : Nat} (inside : start ≤ text.length) :
    SpaceRun text start
      (start + ((text.drop start).takeWhile Bytes.isSpace).length) := by
  have split := (List.takeWhile_append_dropWhile
    (p := Bytes.isSpace) (l := text.drop start)).symm
  obtain ⟨run, rest⟩ := Bytes.drop_eq_append split
  constructor
  · exact Nat.le_add_right _ _
  · exact Bytes.stop_le_of_split inside split
  · intro b member
    rw [← run] at member
    exact List.all_eq_true.mp List.all_takeWhile b member
  · intro b next
    have first : ((text.drop start).dropWhile Bytes.isSpace).head? = some b := by
      rw [rest, List.head?_drop]
      exact next
    have stops := List.head?_dropWhile_not Bytes.isSpace (text.drop start)
    simpa [first] using stops

theorem SpaceRun.takeWhile_eq {text : Bytes} {start stop : Nat}
    (run : SpaceRun text start stop) :
    (text.drop start).takeWhile Bytes.isSpace = text.between start stop := by
  have ended : (text.drop stop).takeWhile Bytes.isSpace = [] := by
    cases rest : text.drop stop with
    | nil => rfl
    | cons b rest =>
        have next : text[stop]? = some b := by rw [← List.head?_drop, rest]; rfl
        rw [List.takeWhile_cons_of_neg]
        simp [run.maximal b next]
  rw [← Bytes.between_append_drop run.ordered, List.takeWhile_append_of_pos run.space, ended,
    List.append_nil]

theorem SpaceRun.stop_eq {text : Bytes} {start stop : Nat} (run : SpaceRun text start stop) :
    start + ((text.drop start).takeWhile Bytes.isSpace).length = stop := by
  have ordered := run.ordered
  rw [run.takeWhile_eq, Bytes.length_between run.inside]
  omega

theorem SpaceRun.dropWhile_eq {text : Bytes} {start stop : Nat}
    (run : SpaceRun text start stop) :
    (text.drop start).dropWhile Bytes.isSpace = text.drop stop := by
  have split := (List.takeWhile_append_dropWhile
    (p := Bytes.isSpace) (l := text.drop start)).symm
  rw [(Bytes.drop_eq_append split).2, run.stop_eq]

/-- Where the cursor stands when it has moved past the white space. -/
theorem Cursor.skipSpace_inside (text : Bytes) (start : Nat) :
    (inside text start).skipSpace =
      inside text (start + ((text.drop start).takeWhile Bytes.isSpace).length) := by
  have split := (List.takeWhile_append_dropWhile
    (p := Bytes.isSpace) (l := text.drop start)).symm
  have rest := (Bytes.drop_eq_append split).2
  simp only [inside, skipSpace, ← rest]

theorem SpaceRun.skipSpace_eq {text : Bytes} {start stop : Nat}
    (run : SpaceRun text start stop) :
    (Cursor.inside text start).skipSpace = Cursor.inside text stop := by
  rw [Cursor.skipSpace_inside, run.stop_eq]

end Stencil
