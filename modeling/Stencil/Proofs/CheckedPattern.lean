import Stencil.Proofs.CheckedReads
import Stencil.Proofs.TokenLayout

/-!
# Checked compilation

The compiler with offsets into the pattern.  Its readers are those of the compiler:
each is given the offset at which it begins and returns what it read and the offset
at which it stopped.
-/

namespace Stencil.Checked

/-- Reads a delimiter group: its inside, and the offset behind its closer. -/
def groupAt (symbols : Symbols) (text : Bytes) (offset : Int) : Run (Slice × Int) := do
  let start := offset + symbols.opener.length
  let stop ← scan (startsAt text · symbols.closer) text.length start
  let inside ← sliceAt text start stop
  return (inside, if stop < text.length then stop + symbols.closer.length else stop)

/-- The delimiter a group stands for. -/
def delimiterOf (text : Bytes) (standard : Bytes) : Option Slice → Run Bytes
  | some group => if group.length = 0 then pure standard else resolve group text
  | none => pure standard

/-- Reads one or two delimiter groups. -/
def delimitersAt (symbols : Symbols) (text : Bytes) (offset : Int) : Run (Delimiters × Int) := do
  let (first, middle) ← groupAt symbols text offset
  let (second, stop) ←
    if ← startsAt text middle symbols.opener then do
      let (second, stop) ← groupAt symbols text middle
      pure (some second, stop)
    else
      pure (none, middle)
  let opener ← delimiterOf text symbols.opener (some first)
  let closer ← delimiterOf text symbols.closer second
  return ({ opener, closer, openerGroup := some first, closerGroup := second }, stop)

/-- Reads a name and the question mark that makes a reference optional. -/
def referenceAt (text : Bytes) (offset : Int) : Run (Reference × Int) := do
  let stop ← skipWhile Bytes.isIdent text offset
  let name ← sliceAt text offset stop
  let optional ← standsAt (· == byte '?') text stop
  return (⟨name, optional⟩, if optional then stop + 1 else stop)

/-- Whether the sigil in front of an offset is doubled, which counts only in front of
a group. -/
def doubledAt (symbols : Symbols) (text : Bytes) (offset : Int) : Run Bool := do
  if ← startsAt text offset symbols.sigil then
    startsAt text (offset + symbols.sigil.length) symbols.opener
  else
    pure false

/-- Reads a reference behind its sigil. -/
def elementAt (symbols : Symbols) (text : Bytes) (offset : Int) : Run (Element × Int) := do
  let doubled ← doubledAt symbols text offset
  let start := if doubled then offset + symbols.sigil.length else offset
  if ← startsAt text start symbols.opener then
    let (delimiters, middle) ← delimitersAt symbols text start
    let (named, stop) ← referenceAt text middle
    return (if doubled then .blocks named delimiters else .block named delimiters, stop)
  else
    let (named, stop) ← referenceAt text start
    return (.variable named, stop)

/-- Whether a word ends at an offset: at white space, or where `stop` begins. -/
def wordEndsAt (stop : Option Bytes) (text : Bytes) (offset : Int) : Run Bool := do
  if Bytes.isSpace (← byteAt text offset) then
    return true
  else
    match stop with
    | some part => startsAt text offset part
    | none => return false

/-- Reads one token: what it asks for, and the offset behind it. -/
def tokenAt (symbols : Symbols) (text : Bytes) (offset : Int) : Run (Element × Int) := do
  if Bytes.isSpace (← byteAt text offset) then
    return (.space, ← skipWhile Bytes.isSpace text offset)
  else if ← startsAt text offset symbols.sigil then
    elementAt symbols text (offset + symbols.sigil.length)
  else
    return (.literal, ← scan (wordEndsAt (some symbols.sigil) text) text.length offset)

/-- Cuts a pattern into tokens, from an offset on. -/
def tokensAt (symbols : Symbols) (text : Bytes) (offset : Int) : Run (List Token) :=
  if offset < text.length then do
    let (element, stop) ← tokenAt symbols text offset
    let own ← sliceAt text offset stop
    goOn text offset stop fun _ => do
      return ⟨own, element, {}⟩ :: (← tokensAt symbols text stop)
  else
    pure []
termination_by (text.length - offset).toNat
decreasing_by omega

/-- Cuts a pattern into tokens and compiles it. -/
def compile (source : Bytes) (symbols : Symbols) : Run (Except Symbols.Fault Pattern) :=
  match symbols.fault? with
  | some fault => pure (.error fault)
  | none => do
      let tokens ← tokensAt symbols source 0
      return .ok ⟨source, symbols, Token.link tokens⟩

section Readers

variable {text : Bytes} {symbols : Symbols} {place : Nat}

theorem reach_groupInside (closer text : Bytes) :
    reach (closer.isPrefixOf ·) text = (Pattern.groupInside closer text).1.length := by
  induction text with
  | nil => rfl
  | cons b text ih =>
      rw [reach, Pattern.groupInside]
      split
      · rfl
      · rw [ih]
        rfl

theorem scan_groupEnd (closer : Bytes) (inside : place ≤ text.length) :
    scan (startsAt text · closer) text.length place =
      pure (Pattern.groupEnd closer text place : Int) := by
  rw [Pattern.groupEnd, ← reach_groupInside]
  apply scan_eq inside
  intro later b rest here
  rw [startsAt_eq (Nat.le_of_lt (drop_eq_cons here).2.2), here]

theorem groupAt_eq (inside : place ≤ text.length) {slice : Slice} {rest : Cursor}
    (found : Pattern.group? symbols (Cursor.inside text place) = some (slice, rest)) :
    groupAt symbols text place = pure (slice, (rest.offset : Int)) := by
  by_cases opens : symbols.opener <+: text.drop place
  · rw [Pattern.group?_inside inside opens] at found
    obtain ⟨rfl, rfl⟩ := Prod.mk.inj (Option.some.inj found)
    obtain ⟨behind, split⟩ := opens
    have within := Bytes.stop_le_of_split inside split.symm
    rw [groupAt, ← Int.natCast_add]
    generalize place + symbols.opener.length = first at within ⊢
    have ordered : first ≤ Pattern.groupEnd symbols.closer text first := Nat.le_add_right _ _
    simp only [scan_groupEnd _ within, pure_bind, sliceAt_eq ordered (Pattern.groupEnd_le within),
      Int.ofNat_lt, ← Int.natCast_add, ← apply_ite Nat.cast]
    rfl
  · rw [Pattern.group?_eq_none opens] at found
    cases found

theorem delimiterOf_eq {slice : Slice} {start stop : Nat} (lies : slice.Lies text start stop)
    (inside : stop ≤ text.length) (standard : Bytes) :
    delimiterOf text standard (some slice) =
      pure (if slice.text.isEmpty then standard else slice.text) := by
  rw [delimiterOf, resolve_eq lies.stands (Nat.le_trans lies.upper inside), ← apply_ite pure]
  simp [Slice.length]

theorem group?_isSome (symbols : Symbols) (text : Bytes) (place : Nat) :
    (Pattern.group? symbols (Cursor.inside text place)).isSome =
      symbols.opener.isPrefixOf (text.drop place) := by
  rw [Pattern.group?, Cursor.inside_rest]
  cases symbols.opener.isPrefixOf (text.drop place) <;> rfl

theorem delimitersAt_eq (inside : place ≤ text.length) {delimiters : Delimiters} {rest : Cursor}
    (found : Pattern.delimiters? symbols (Cursor.inside text place) = some (delimiters, rest)) :
    delimitersAt symbols text place = pure (delimiters, (rest.offset : Int)) := by
  unfold Pattern.delimiters? at found
  obtain ⟨⟨first, afterFirst⟩, opened, pair⟩ := Option.map_eq_some_iff.mp found
  obtain ⟨middle, ⟨rfl, below, bound⟩, firstLies⟩ := Pattern.group?_lies inside opened
  rw [delimitersAt, groupAt_eq inside opened]
  simp only [pure_bind, Cursor.inside_offset, startsAt_eq bound, ← group?_isSome]
  cases second : Pattern.group? symbols (Cursor.inside text middle) with
  | none =>
      simp only [second, Prod.mk.injEq] at pair
      obtain ⟨rfl, rfl⟩ := pair
      simp only [Option.isSome_none, Bool.false_eq_true, if_false, pure_bind,
        delimiterOf_eq firstLies bound]
      rfl
  | some both =>
      obtain ⟨slice, afterSecond⟩ := both
      obtain ⟨stop, ⟨rfl, above, within⟩, secondLies⟩ := Pattern.group?_lies bound second
      simp only [second, Prod.mk.injEq] at pair
      obtain ⟨rfl, rfl⟩ := pair
      simp only [Option.isSome_some, if_true, groupAt_eq bound second, pure_bind,
        delimiterOf_eq firstLies bound, delimiterOf_eq secondLies within]

theorem referenceAt_eq (inside : place ≤ text.length) :
    referenceAt text place =
      pure ((Pattern.reference (Cursor.inside text place)).1,
        ((Pattern.reference (Cursor.inside text place)).2.offset : Int)) := by
  have ordered : place ≤ Pattern.nameEnd text place := Nat.le_add_right _ _
  have named : skipWhile Bytes.isIdent text place = pure (Pattern.nameEnd text place : Int) :=
    skipWhile_eq _ inside
  rw [referenceAt, named, Pattern.reference_inside inside]
  simp only [pure_bind, sliceAt_eq ordered (Pattern.nameEnd_le inside), standsAt_eq,
    Cursor.inside_offset, Pattern.nameStop]
  cases text[Pattern.nameEnd text place]? with
  | none => simp
  | some b => by_cases marked : b = byte '?' <;> simp [marked, beq_false_of_ne]

theorem doubledAt_eq (symbols : Symbols) (inside : place ≤ text.length) :
    doubledAt symbols text place =
      pure (symbols.sigil.isPrefixOf (text.drop place) &&
        symbols.opener.isPrefixOf (text.drop (place + symbols.sigil.length))) := by
  rw [doubledAt, startsAt_eq inside, pure_bind]
  split
  · next again =>
      obtain ⟨rest, split⟩ := List.isPrefixOf_iff_prefix.mp again
      rw [← Int.natCast_add, startsAt_eq (Bytes.stop_le_of_split inside split.symm), again,
        Bool.true_and]
  · next single => simp [single]

theorem delimiters?_isSome (symbols : Symbols) (text : Bytes) (place : Nat) :
    (Pattern.delimiters? symbols (Cursor.inside text place)).isSome =
      symbols.opener.isPrefixOf (text.drop place) := by
  rw [Pattern.delimiters?, Option.isSome_map, group?_isSome]

theorem elementAt_eq (symbols : Symbols) (inside : place ≤ text.length) :
    elementAt symbols text place =
      pure ((Pattern.element symbols (Cursor.inside text place)).1,
        ((Pattern.element symbols (Cursor.inside text place)).2.offset : Int)) := by
  rw [elementAt, doubledAt_eq symbols inside, pure_bind, Pattern.element, Cursor.inside_advance,
    Cursor.inside_rest, Cursor.inside_rest]
  generalize twice : (symbols.sigil.isPrefixOf (text.drop place) &&
    symbols.opener.isPrefixOf (text.drop (place + symbols.sigil.length))) = doubled
  cases doubled with
  | false =>
      simp only [Bool.false_eq_true, if_false, startsAt_eq inside, pure_bind,
        ← delimiters?_isSome]
      cases found : Pattern.delimiters? symbols (Cursor.inside text place) with
      | none => simp [referenceAt_eq inside]
      | some read =>
          obtain ⟨delimiters, rest⟩ := read
          obtain ⟨middle, ⟨rfl, -, bound⟩, -⟩ := Pattern.delimiters?_lies inside found
          simp [delimitersAt_eq inside found, referenceAt_eq bound]
  | true =>
      obtain ⟨again, opens⟩ := Bool.and_eq_true_iff.mp twice
      obtain ⟨rest, split⟩ := List.isPrefixOf_iff_prefix.mp again
      have within := Bytes.stop_le_of_split inside split.symm
      rw [← delimiters?_isSome] at opens
      obtain ⟨⟨delimiters, rest⟩, found⟩ := Option.isSome_iff_exists.mp opens
      obtain ⟨middle, ⟨rfl, -, bound⟩, -⟩ := Pattern.delimiters?_lies within found
      simp only [if_true, ← Int.natCast_add, startsAt_eq within, ← delimiters?_isSome, found,
        Option.isSome_some, pure_bind, delimitersAt_eq within found, Cursor.inside_offset,
        referenceAt_eq bound]

end Readers

section Compiler

variable {source : Bytes} {symbols : Symbols}

theorem reach_wordLength (stop : Option Bytes) (text : Bytes) :
    reach (fun rest => rest.head?.any Bytes.isSpace || stop.any (·.isPrefixOf rest)) text =
      Token.wordLength stop text := by
  induction text with
  | nil => rfl
  | cons b text ih => rw [reach, Token.wordLength, List.head?_cons, Option.any_some, ih]

theorem scan_wordLength (stop : Option Bytes) {offset : Nat} (inside : offset ≤ source.length) :
    scan (wordEndsAt stop source) source.length offset =
      pure ((offset + Token.wordLength stop (source.drop offset) : Nat) : Int) := by
  rw [← reach_wordLength]
  apply scan_eq inside
  intro later b rest here
  obtain ⟨byte, -, remains⟩ := drop_eq_cons here
  unfold wordEndsAt
  rw [byteAt_eq byte, pure_bind, List.head?_cons, Option.any_some]
  cases Bytes.isSpace b with
  | true => rfl
  | false =>
      cases stop with
      | none => rfl
      | some part =>
          have stands := startsAt_eq (Nat.le_of_lt remains) part
          rw [here] at stands
          exact stands

/-- A literal is a word that ends at a sigil. -/
theorem length_literalRun (sigil text : Bytes) :
    (Pattern.literalRun sigil text).1.length = Token.wordLength (some sigil) text := by
  induction text with
  | nil => rfl
  | cons b text ih =>
      rw [Pattern.literalRun, Token.wordLength, Option.any_some, ← ih]
      split <;> rfl

theorem tokensAt_cons {offset stop : Nat} {b : UInt8} {tail : Bytes} {element : Element}
    {later : List Token} (here : source.drop offset = b :: tail) (moves : offset < stop)
    (inside : stop ≤ source.length)
    (read : tokenAt symbols source offset = pure (element, (stop : Int)))
    (behind : tokensAt symbols source stop = pure later) :
    tokensAt symbols source offset =
      pure (⟨⟨offset, source.between offset stop⟩, element, {}⟩ :: later) := by
  obtain ⟨-, -, remains⟩ := drop_eq_cons here
  rw [tokensAt, if_pos (by omega), read]
  simp only [pure_bind, sliceAt_eq (Nat.le_of_lt moves) inside,
    goOn_eq (Int.ofNat_lt.mpr moves) (Int.ofNat_le.mpr inside), behind]

theorem tokensAt_eq (valid : symbols.Valid) {offset : Nat} {text : Bytes}
    (inside : offset ≤ source.length) (here : source.drop offset = text) :
    tokensAt symbols source offset = pure (Pattern.tokensFrom symbols offset text) := by
  fun_induction Pattern.tokensFrom symbols offset text with
  | case1 offset =>
      have ended := List.drop_eq_nil_iff.mp here
      rw [tokensAt, if_neg (by omega)]
  | case2 offset b tail blank run ih =>
      have split : source.drop offset = run ++ tail.dropWhile Bytes.isSpace := by
        rw [here, List.cons_append, List.takeWhile_append_dropWhile]
      obtain ⟨taken, rest⟩ := Bytes.drop_eq_append split
      have within := Bytes.stop_le_of_split inside split
      have read : tokenAt symbols source offset = pure (.space, ((offset + run.length : Nat) : Int)) := by
        rw [tokenAt, byteAt_eq (drop_eq_cons here).1, pure_bind, if_pos blank,
          skipWhile_eq _ inside, pure_bind, here, List.takeWhile_cons_of_pos blank]
      rw [tokensAt_cons here (Nat.lt_add_of_pos_right (by simp [run])) within read
        (ih within rest.symm), ← taken]
  | case3 offset b tail solid begins read ih =>
      have split : source.drop offset = symbols.sigil ++ tail.drop (symbols.sigil.length - 1) := by
        rw [here, cons_eq_append_drop valid.sigil begins]
      obtain ⟨-, rest⟩ := Bytes.drop_eq_append split
      have within := Bytes.stop_le_of_split inside split
      have same : read =
          Pattern.element symbols (Cursor.inside source (offset + symbols.sigil.length)) := by
        simp only [read, rest]
        rfl
      obtain ⟨stop, ⟨behind, ordered, bound⟩, -⟩ :=
        Pattern.element_canonical valid ⟨_, split.symm⟩ rfl within
      have taken : tokenAt symbols source offset = pure (read.1, (stop : Int)) := by
        rw [tokenAt, byteAt_eq (drop_eq_cons here).1, pure_bind, if_neg solid, startsAt_eq inside,
          pure_bind, here, if_pos begins, ← Int.natCast_add, elementAt_eq symbols within, behind,
          same]
        rfl
      have sigilMoves := List.length_pos_iff.mpr valid.sigil
      rw [← same] at behind
      have own : Cursor.sliceTo ⟨offset, b :: tail⟩ read.2.rest =
          ⟨offset, source.between offset stop⟩ := by
        rw [behind, ← here]
        exact Cursor.inside_sliceTo_drop (by omega)
      rw [behind] at ih
      rw [own, behind]
      exact tokensAt_cons here (by omega) bound taken (ih bound rfl)
  | case4 offset b tail solid plain run ih =>
      have split : source.drop offset = run ++ (Pattern.literalRun symbols.sigil tail).2 := by
        rw [here, List.cons_append, Pattern.literalRun_append]
      obtain ⟨taken, rest⟩ := Bytes.drop_eq_append split
      have within := Bytes.stop_le_of_split inside split
      have whole : Token.wordLength (some symbols.sigil) (b :: tail) = run.length := by
        simp [Token.wordLength, solid, plain, run, length_literalRun]
      have read : tokenAt symbols source offset = pure (.literal, ((offset + run.length : Nat) : Int)) := by
        rw [tokenAt, byteAt_eq (drop_eq_cons here).1, pure_bind, if_neg solid, startsAt_eq inside,
          pure_bind, here, if_neg plain, scan_wordLength _ inside, here, whole, pure_bind]
      rw [tokensAt_cons here (Nat.lt_add_of_pos_right (by simp [run])) within read
        (ih within rest.symm), ← taken]

/-- Compiling reads nothing outside of the pattern, whatever the marks are. -/
theorem compile_eq (source : Bytes) (symbols : Symbols) :
    compile source symbols = pure (Pattern.compile source symbols) := by
  rw [compile, Pattern.compile]
  cases fault : symbols.fault? with
  | some fault => rfl
  | none =>
      have valid := Symbols.fault?_eq_none_iff.mp fault
      have tokens : tokensAt symbols source 0 = pure (Pattern.tokensFrom symbols 0 source) :=
        tokensAt_eq valid (Nat.zero_le _) List.drop_zero
      simp only [tokens, pure_bind]

end Compiler

end Stencil.Checked
