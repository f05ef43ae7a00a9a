import Stencil.Proofs.Block
import Stencil.Proofs.Cursor
import Stencil.Proofs.Utf8

/-!
# Checked reads

The library follows what remains of a text, so there is no offset it could get
wrong.  Here its readers are written with offsets into the whole text instead.
Every access names its offsets, and one outside the text is a fault.  So is a turn of
a loop that does not move on inside of the text, since it could be taken forever.

A run that equals `pure` of a value has come to an end by itself and has read nothing
outside of any text.  Each reader has one such equation, at the offsets it may be used at.
-/

namespace Stencil.Checked

/-- An access outside of a text of some length, or a turn of a loop from one offset to
another that does not move on inside of the text. -/
inductive Fault where
  | byte (offset : Int) (length : Nat)
  | slice (start stop : Int) (length : Nat)
  | turn (offset next : Int) (length : Nat)

/-- A computation that may fail by a fault. -/
abbrev Run (α : Type) := Except Fault α

/-- The byte at an offset. -/
def byteAt (text : Bytes) (offset : Int) : Run UInt8 :=
  match if 0 ≤ offset then text[offset.toNat]? else none with
  | some b => pure b
  | none => throw (.byte offset text.length)

/-- The text from one offset to another. -/
def cut (text : Bytes) (start stop : Int) : Run Bytes :=
  if 0 ≤ start ∧ start ≤ stop ∧ stop ≤ text.length then
    pure (text.between start.toNat stop.toNat)
  else
    throw (.slice start stop text.length)

/-- The text from an offset on. -/
def behind (text : Bytes) (start : Int) : Run Bytes :=
  cut text start text.length

/-- The slice from one offset to another. -/
def sliceAt (text : Bytes) (start stop : Int) : Run Slice := do
  return ⟨start.toNat, ← cut text start stop⟩

/-- Reads a slice from the text it lies in, by its offsets. -/
def resolve (slice : Slice) (text : Bytes) : Run Bytes :=
  cut text slice.start slice.stop

/-- Whether a text continues with `part` at an offset. -/
def startsAt (text : Bytes) (offset : Int) (part : Bytes) : Run Bool := do
  return part.isPrefixOf (← behind text offset)

/-- Whether a byte of a class stands at an offset.  At the end of a text none does. -/
def standsAt (member : UInt8 → Bool) (text : Bytes) (offset : Int) : Run Bool :=
  if offset < text.length then do
    return member (← byteAt text offset)
  else
    pure false

/-- Takes the next turn of a loop, at a later offset of a text. -/
def goOn {α : Type} (text : Bytes) (offset next : Int)
    (later : offset < next ∧ next ≤ text.length → Run α) : Run α :=
  if moves : offset < next ∧ next ≤ text.length then
    later moves
  else
    throw (.turn offset next text.length)

/-- Moves on byte by byte up to a place at which `halts`, or up to the limit. -/
def scan (halts : Int → Run Bool) (limit offset : Int) : Run Int :=
  if offset < limit then do
    if ← halts offset then pure offset else scan halts limit (offset + 1)
  else
    pure offset
termination_by (limit - offset).toNat
decreasing_by omega

/-- Moves past the bytes of a class. -/
def skipWhile (member : UInt8 → Bool) (text : Bytes) (offset : Int) : Run Int :=
  scan (fun place => do return !member (← byteAt text place)) text.length offset

/-- The width of the character at an offset.  A small byte is a character of its
own; any other byte is decoded. -/
def widthAt (text : Bytes) (offset : Int) : Run Nat := do
  if (← byteAt text offset) < 0x80 then
    return 1
  else
    return Utf8.width (← behind text offset)

/-- Reads on to the closer that balances a block, with the number of openers that
are still open.  `start` is the offset behind the first of them. -/
def blockFrom (text opener closer : Bytes) (start depth offset : Int) :
    Run (Slice × Int × Bool) :=
  if offset < text.length then do
    let opens ← if opener ≠ closer then startsAt text offset opener else pure false
    if opens then
      goOn text offset (offset + opener.length) fun _ =>
        blockFrom text opener closer start (depth + 1) (offset + opener.length)
    else if ← startsAt text offset closer then
      if depth = 1 then
        return (← sliceAt text start offset, offset + closer.length, true)
      else
        goOn text offset (offset + closer.length) fun _ =>
          blockFrom text opener closer start (depth - 1) (offset + closer.length)
    else
      blockFrom text opener closer start depth (offset + 1)
  else do
    return (← sliceAt text start text.length, text.length, false)
termination_by (text.length - offset).toNat
decreasing_by all_goals omega

/-- The inside of the block that begins at an offset, the offset behind it, and
whether it is closed.  Without a block nothing is taken. -/
def blockAt (text : Bytes) (offset : Int) (opener closer : Bytes) : Run (Slice × Int × Bool) := do
  if opener.isEmpty || closer.isEmpty then
    return (← sliceAt text offset offset, offset, false)
  else if ← startsAt text offset opener then
    blockFrom text opener closer (offset + opener.length) 1 (offset + opener.length)
  else
    return (← sliceAt text offset offset, offset, false)

/-! ## Reads inside a text -/

section Reads

variable {text : Bytes}

theorem byteAt_eq {place : Nat} {b : UInt8} (here : text[place]? = some b) :
    byteAt text place = pure b := by
  simp [byteAt, here]

theorem cut_eq {start stop : Nat} (ordered : start ≤ stop) (inside : stop ≤ text.length) :
    cut text start stop = pure (text.between start stop) := by
  rw [cut, if_pos (by omega), Int.toNat_natCast, Int.toNat_natCast]

example : cut (bytes "ab") 1 3 = throw (.slice 1 3 2) := rfl

theorem behind_eq {place : Nat} (inside : place ≤ text.length) :
    behind text place = pure (text.drop place) := by
  rw [behind, cut_eq inside (Nat.le_refl _), Bytes.between_length]

theorem sliceAt_eq {start stop : Nat} (ordered : start ≤ stop) (inside : stop ≤ text.length) :
    sliceAt text start stop = pure ⟨start, text.between start stop⟩ := by
  rw [sliceAt, cut_eq ordered inside, pure_bind, Int.toNat_natCast]

theorem resolve_eq {slice : Slice} (stands : slice.Of text) (inside : slice.stop ≤ text.length) :
    resolve slice text = pure slice.text := by
  obtain ⟨rest, split⟩ := stands
  have ordered : slice.start ≤ slice.stop := Nat.le_add_right _ _
  rw [resolve, cut_eq ordered inside]
  exact congrArg pure (Bytes.drop_eq_append split.symm).1.symm

theorem goOn_eq {α : Type} {place next : Int} (moves : place < next)
    (inside : next ≤ text.length) (later : place < next ∧ next ≤ text.length → Run α) :
    goOn text place next later = later ⟨moves, inside⟩ :=
  dif_pos ⟨moves, inside⟩

theorem startsAt_eq {place : Nat} (inside : place ≤ text.length) (part : Bytes) :
    startsAt text place part = pure (part.isPrefixOf (text.drop place)) := by
  rw [startsAt, behind_eq inside, pure_bind]

theorem standsAt_eq (member : UInt8 → Bool) (text : Bytes) (place : Nat) :
    standsAt member text place = pure (text[place]?.any member) := by
  rw [standsAt]
  split
  · next inside =>
      have here := List.getElem?_eq_getElem (Int.ofNat_lt.mp inside)
      rw [byteAt_eq here, pure_bind, here]
      rfl
  · next beyond =>
      rw [List.getElem?_eq_none (by omega)]
      rfl

/-- The number of bytes before the first place at which a text `stops`. -/
def reach (stops : Bytes → Bool) : Bytes → Nat
  | [] => 0
  | b :: text => if stops (b :: text) then 0 else reach stops text + 1

theorem scan_eq {halts : Int → Run Bool} {stops : Bytes → Bool} {place : Nat}
    (inside : place ≤ text.length)
    (reads : ∀ later b rest, text.drop later = b :: rest →
      halts later = pure (stops (b :: rest))) :
    scan halts text.length place = pure ((place + reach stops (text.drop place) : Nat) : Int) := by
  generalize here : text.drop place = rest
  induction rest generalizing place with
  | nil =>
      have ended := List.drop_eq_nil_iff.mp here
      rw [scan, if_neg (by omega)]
      rfl
  | cons b tail ih =>
      obtain ⟨-, next, remains⟩ := drop_eq_cons here
      rw [scan, if_pos (by omega), reads place b tail here, pure_bind, reach]
      split
      · rfl
      · rw [← Int.natCast_succ, ih remains next, Nat.succ_add_eq_add_succ]

theorem reach_takeWhile (member : UInt8 → Bool) (text : Bytes) :
    reach (fun rest => !rest.head?.any member) text = (text.takeWhile member).length := by
  induction text with
  | nil => rfl
  | cons b text ih => cases known : member b <;> simp [reach, known, ih]

theorem skipWhile_eq (member : UInt8 → Bool) {place : Nat} (inside : place ≤ text.length) :
    skipWhile member text place =
      pure ((place + ((text.drop place).takeWhile member).length : Nat) : Int) := by
  rw [skipWhile, ← reach_takeWhile]
  apply scan_eq inside
  intro later b rest here
  rw [byteAt_eq (drop_eq_cons here).1, pure_bind]
  rfl

theorem skipWhile_space {start stop : Nat} (inside : start ≤ text.length)
    (run : SpaceRun text start stop) : skipWhile Bytes.isSpace text start = pure (stop : Int) := by
  rw [skipWhile_eq _ inside, run.stop_eq]

theorem width_le {place : Nat} (inside : place < text.length) :
    place + Utf8.width (text.drop place) ≤ text.length := by
  have remains : 1 ≤ (text.drop place).length := by
    rw [List.length_drop]
    omega
  have fits : Utf8.width (text.drop place) ≤ (text.drop place).length := by
    unfold Utf8.width
    cases known : Utf8.width? (text.drop place) with
    | none => exact remains
    | some n =>
        obtain ⟨char, rest, whole, rfl⟩ := Utf8.width?_eq_some_iff.mp known
        rw [whole]
        exact (List.prefix_append _ _).length_le
  rw [List.length_drop] at fits
  omega

theorem widthAt_eq {place : Nat} (inside : place < text.length) :
    widthAt text place = pure (Utf8.width (text.drop place)) := by
  have here := List.drop_eq_getElem_cons inside
  rw [widthAt, byteAt_eq (drop_eq_cons here).1, pure_bind, behind_eq (Nat.le_of_lt inside),
    pure_bind, here]
  split
  · next small => simp [Utf8.width, Utf8.width?, small]
  · rfl

end Reads

/-! ## Blocks -/

section Blocks

variable {text opener closer : Bytes}

/-- What the loop of a block reports, given what is read from `place` on. -/
def reported (text closer : Bytes) (start place : Nat) :
    Option (Bytes × Bytes) → Slice × Int × Bool
  | some (inner, _) =>
      (⟨start, text.between start (place + inner.length)⟩,
        ((place + inner.length + closer.length : Nat) : Int), true)
  | none => (⟨start, text.drop start⟩, (text.length : Int), false)

theorem reported_map (taken : Bytes) {start place : Nat} (read : Option (Bytes × Bytes)) :
    reported text closer start place (read.map fun (inner, rest) => (taken ++ inner, rest)) =
      reported text closer start (place + taken.length) read := by
  cases read with
  | none => rfl
  | some found => simp [reported, Nat.add_assoc]

theorem blockFrom_cons {b : UInt8} {tail : Bytes} {start depth : Int} {place : Nat}
    (here : text.drop place = b :: tail) :
    blockFrom text opener closer start depth place =
      if opener ≠ closer ∧ opener.isPrefixOf (b :: tail) then
        goOn text place (place + opener.length) fun _ =>
          blockFrom text opener closer start (depth + 1) (place + opener.length)
      else if closer.isPrefixOf (b :: tail) then
        if depth = 1 then do
          return (← sliceAt text start place, place + closer.length, true)
        else
          goOn text place (place + closer.length) fun _ =>
            blockFrom text opener closer start (depth - 1) (place + closer.length)
      else
        blockFrom text opener closer start depth (place + 1) := by
  obtain ⟨-, -, remains⟩ := drop_eq_cons here
  rw [blockFrom, if_pos (by omega), startsAt_eq (Nat.le_of_lt remains),
    startsAt_eq (Nat.le_of_lt remains), here]
  by_cases same : opener = closer <;> simp [same]

/-- The loop of a block follows `Block.body`, with the block itself counted as open. -/
theorem blockFrom_eq (openerNonempty : opener ≠ []) (closerNonempty : closer ≠ [])
    (depth : Nat) {start place : Nat} (ordered : start ≤ place) (inside : place ≤ text.length) :
    blockFrom text opener closer start (depth + 1) place =
      pure (reported text closer start place
        (Block.body opener closer depth (text.drop place))) := by
  have openerMoves := List.length_pos_iff.mpr openerNonempty
  have closerMoves := List.length_pos_iff.mpr closerNonempty
  generalize here : text.drop place = rest
  fun_induction Block.body opener closer depth rest generalizing place with
  | case1 depth =>
      have ended := List.drop_eq_nil_iff.mp here
      rw [blockFrom, if_neg (by omega), sliceAt_eq (Nat.le_trans ordered inside) (Nat.le_refl _),
        pure_bind, Bytes.between_length]
      rfl
  | case2 depth b tail opens ih =>
      have split := here.trans (cons_eq_append_drop openerNonempty opens.2)
      have within := Bytes.stop_le_of_split inside split
      have follow := ih (Nat.le_add_right_of_le ordered) within (Bytes.drop_eq_append split).2.symm
      push_cast at follow
      rw [blockFrom_cons here, if_pos opens, goOn_eq (by omega) (by omega), follow, reported_map]
  | case3 b tail single closes =>
      rw [blockFrom_cons here, if_neg single, if_pos closes, if_pos (by omega),
        sliceAt_eq ordered inside, pure_bind]
      rfl
  | case4 b tail single closes depth ih =>
      have split := here.trans (cons_eq_append_drop closerNonempty closes)
      have within := Bytes.stop_le_of_split inside split
      have follow := ih (Nat.le_add_right_of_le ordered) within (Bytes.drop_eq_append split).2.symm
      push_cast at follow ⊢
      rw [blockFrom_cons here, if_neg single, if_pos closes, if_neg (by omega),
        goOn_eq (by omega) (by omega), Int.add_sub_cancel, follow, reported_map]
  | case5 depth b tail single unclosed ih =>
      obtain ⟨-, next, remains⟩ := drop_eq_cons here
      have follow := ih (Nat.le_succ_of_le ordered) remains next
      push_cast at follow
      rw [blockFrom_cons here, if_neg single, if_neg unclosed, follow]
      exact congrArg pure (reported_map [b] _).symm

theorem drop_injective {first second : Nat} (inside : first ≤ text.length)
    (within : second ≤ text.length) (same : text.drop first = text.drop second) :
    first = second := by
  have lengths := congrArg List.length same
  simp only [List.length_drop] at lengths
  omega

/-- A block that is read ends where its rest begins. -/
theorem blockAt_eq {place stop : Nat} (inside : place ≤ text.length) {block : Block}
    (read : Block.read? opener closer (text.drop place) = some block)
    (within : stop ≤ text.length) (rest : block.rest = text.drop stop) :
    blockAt text place opener closer =
      pure (⟨place + opener.length, block.inner⟩, (stop : Int), block.closed) := by
  unfold Block.read? at read
  split at read
  · cases read
  next usable =>
    simp only [Bool.or_eq_true, List.isEmpty_iff, Bool.not_eq_true', not_or,
      Bool.not_eq_false] at usable
    obtain ⟨⟨openerNonempty, closerNonempty⟩, begins⟩ := usable
    obtain ⟨tail, opened⟩ := List.isPrefixOf_iff_prefix.mp begins
    have entered := Bytes.stop_le_of_split inside opened.symm
    have loop := blockFrom_eq openerNonempty closerNonempty 0 (Nat.le_refl _) entered
    have nonempty : ¬ (opener.isEmpty || closer.isEmpty) = true := by
      simp [openerNonempty, closerNonempty]
    push_cast at loop
    rw [blockAt, if_neg nonempty, startsAt_eq inside, pure_bind, if_pos begins]
    refine loop.trans (congrArg pure ?_)
    rw [List.drop_drop] at read
    cases body : Block.body opener closer 0 (text.drop (place + opener.length)) with
    | none =>
        rw [body] at read
        cases read
        have ended := drop_injective within (Nat.le_refl _) (rest.symm.trans (by simp))
        rw [reported, ended]
    | some found =>
        obtain ⟨inner, behind⟩ := found
        rw [body] at read
        cases read
        have split := Block.body_append openerNonempty closerNonempty body
        obtain ⟨taken, closed⟩ := Bytes.drop_eq_append split
        have fits := Bytes.stop_le_of_split entered split
        obtain ⟨-, last⟩ := Bytes.drop_eq_append closed.symm
        have ended := Bytes.stop_le_of_split fits closed.symm
        rw [reported, ← taken, drop_injective within ended (rest.symm.trans last)]

end Blocks

end Stencil.Checked
