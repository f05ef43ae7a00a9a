import Stencil.Proofs.Block

/-!
# Where a block ends

The text behind an opener is cut from left to right into openers, closers and
single bytes.  A block ends before the first closer that closes more than was
opened.  So its inside is balanced, and a balanced inside is read whatever follows
its closer.

`Block.body` counts the depth while it cuts the text.  Here the two are taken apart:
`Cut` describes the cutting alone, and `Item.split?` counts on the items.
-/

namespace Stencil

/-- As many `left` as `right`, and in no beginning more `right` than `left`. -/
structure Balanced {α : Type} [DecidableEq α] (left right : α) (list : List α) : Prop where
  level : list.count left = list.count right
  held : ∀ front, front <+: list → front.count right ≤ front.count left

/-- What `Balanced` becomes behind `depth` openers, which the list closes as well. -/
structure ClosesOff {α : Type} [DecidableEq α] (left right : α) (depth : Nat) (list : List α) :
    Prop where
  level : list.count left + depth = list.count right
  held : ∀ front, front <+: list → front.count right ≤ front.count left + depth

section Counting

variable {α : Type} [DecidableEq α] {left right : α} {depth : Nat} {list : List α}

instance : Decidable (Balanced left right list) :=
  decidable_of_iff
    (list.count left = list.count right ∧ ∀ n, n < list.length + 1 →
      (list.take n).count right ≤ (list.take n).count left) <| by
    constructor
    · rintro ⟨level, held⟩
      refine ⟨level, fun front begins => ?_⟩
      rw [List.prefix_iff_eq_take.mp begins]
      exact held _ (Nat.lt_succ_of_le begins.length_le)
    · rintro ⟨level, held⟩
      exact ⟨level, fun n _ => held _ (List.take_prefix n list)⟩

theorem closesOff_zero_iff : ClosesOff left right 0 list ↔ Balanced left right list := by
  constructor
  · intro closes
    exact ⟨closes.level, closes.held⟩
  · intro balanced
    exact ⟨balanced.level, balanced.held⟩

theorem closesOff_nil : ClosesOff left right 0 [] := by
  constructor
  · simp
  · intro front begins
    simp [List.prefix_nil.mp begins]

/-- The first item of a list changes the depth by what it opens and closes. -/
theorem closesOff_cons_iff {item : α} {after : Nat}
    (change : [item].count left + depth = [item].count right + after) :
    ClosesOff left right depth (item :: list) ↔ ClosesOff left right after list := by
  rw [List.count_singleton, List.count_singleton] at change
  constructor
  · rintro ⟨level, held⟩
    constructor
    · rw [List.count_cons, List.count_cons] at level
      omega
    · intro front begins
      have whole := held (item :: front) (List.cons_prefix_cons.mpr ⟨rfl, begins⟩)
      rw [List.count_cons, List.count_cons] at whole
      omega
  · rintro ⟨level, held⟩
    constructor
    · rw [List.count_cons, List.count_cons]
      omega
    · intro front begins
      rcases List.prefix_cons_iff.mp begins with rfl | ⟨later, rfl, inside⟩
      · simp
      · have rest := held later inside
        rw [List.count_cons, List.count_cons]
        omega

end Counting

namespace Block

/-- What a text is cut into. -/
inductive Item where
  | opener
  | closer
  | byte (b : UInt8)
  deriving DecidableEq

namespace Item

def text (opener closer : Bytes) : Item → Bytes
  | .opener => opener
  | .closer => closer
  | .byte b => [b]

/-- The items before the first closer that closes more than `depth` openers and those
before it, and the items behind it. -/
def split? : Nat → List Item → Option (List Item × List Item)
  | _, [] => none
  | depth, .opener :: items =>
      (split? (depth + 1) items).map fun (before, after) => (.opener :: before, after)
  | 0, .closer :: items => some ([], items)
  | depth + 1, .closer :: items =>
      (split? depth items).map fun (before, after) => (.closer :: before, after)
  | depth, .byte b :: items =>
      (split? depth items).map fun (before, after) => (.byte b :: before, after)

theorem closesOff_opener {depth : Nat} {items : List Item} :
    ClosesOff opener closer depth (.opener :: items) ↔ ClosesOff opener closer (depth + 1) items :=
  closesOff_cons_iff (by simp; omega)

theorem closesOff_closer {depth : Nat} {items : List Item} :
    ClosesOff opener closer (depth + 1) (.closer :: items) ↔ ClosesOff opener closer depth items :=
  closesOff_cons_iff (by simp; omega)

theorem not_closesOff_closer {items : List Item} :
    ¬ ClosesOff opener closer 0 (.closer :: items) := by
  intro closes
  have held := closes.held [.closer] (List.prefix_append _ _)
  simp at held

theorem closesOff_byte {depth : Nat} {b : UInt8} {items : List Item} :
    ClosesOff opener closer depth (.byte b :: items) ↔ ClosesOff opener closer depth items :=
  closesOff_cons_iff (by simp)

theorem split?_sound {depth : Nat} {items before after : List Item}
    (found : split? depth items = some (before, after)) :
    items = before ++ .closer :: after ∧ ClosesOff opener closer depth before := by
  fun_induction split? depth items generalizing before after with
  | case1 => cases found
  | case2 depth items ih =>
      obtain ⟨⟨front, back⟩, later, pair⟩ := Option.map_eq_some_iff.mp found
      cases pair
      obtain ⟨rfl, closes⟩ := ih later
      exact ⟨rfl, closesOff_opener.mpr closes⟩
  | case3 items =>
      cases found
      exact ⟨rfl, closesOff_nil⟩
  | case4 depth items ih =>
      obtain ⟨⟨front, back⟩, later, pair⟩ := Option.map_eq_some_iff.mp found
      cases pair
      obtain ⟨rfl, closes⟩ := ih later
      exact ⟨rfl, closesOff_closer.mpr closes⟩
  | case5 depth b items ih =>
      obtain ⟨⟨front, back⟩, later, pair⟩ := Option.map_eq_some_iff.mp found
      cases pair
      obtain ⟨rfl, closes⟩ := ih later
      exact ⟨rfl, closesOff_byte.mpr closes⟩

theorem split?_of_closesOff {depth : Nat} {before : List Item}
    (closes : ClosesOff opener closer depth before) (after : List Item) :
    split? depth (before ++ .closer :: after) = some (before, after) := by
  induction before generalizing depth with
  | nil =>
      have level := closes.level
      simp at level
      subst level
      rfl
  | cons item before ih =>
      cases item with
      | opener => simp [split?, ih (closesOff_opener.mp closes)]
      | closer =>
          cases depth with
          | zero => exact absurd closes not_closesOff_closer
          | succ depth => simp [split?, ih (closesOff_closer.mp closes)]
      | byte b => simp [split?, ih (closesOff_byte.mp closes)]

/-- Where a closer makes the closers outnumber the openers, some closer is the first to
do so. -/
theorem split?_isSome {depth : Nat} {before : List Item}
    (exceeds : before.count opener + depth ≤ before.count closer) (after : List Item) :
    (split? depth (before ++ .closer :: after)).isSome = true := by
  induction before generalizing depth with
  | nil =>
      obtain rfl : depth = 0 := by simpa using exceeds
      rfl
  | cons item before ih =>
      rw [List.count_cons, List.count_cons] at exceeds
      cases item with
      | opener =>
          have deeper : before.count opener + (depth + 1) ≤ before.count closer := by
            simp at exceeds
            omega
          simp [split?, ih deeper]
      | closer =>
          cases depth with
          | zero => rfl
          | succ depth =>
              have shallower : before.count opener + depth ≤ before.count closer := by
                simp at exceeds
                omega
              simp [split?, ih shallower]
      | byte b =>
          have same : before.count opener + depth ≤ before.count closer := by
            simpa using exceeds
          simp [split?, ih same]

theorem split?_isSome_iff {items : List Item} :
    (split? 0 items).isSome = true ↔ ∃ before after, items = before ++ .closer :: after ∧
      (before ++ [closer]).count opener < (before ++ [closer]).count closer := by
  have last : ∀ before : List Item, (before ++ [closer]).count opener = before.count opener ∧
      (before ++ [closer]).count closer = before.count closer + 1 := by simp
  constructor
  · intro found
    obtain ⟨⟨before, after⟩, split⟩ := Option.isSome_iff_exists.mp found
    obtain ⟨cut, closes⟩ := split?_sound split
    refine ⟨before, after, cut, ?_⟩
    have level := closes.level
    rw [(last before).1, (last before).2]
    omega
  · rintro ⟨before, after, rfl, exceeds⟩
    rw [(last before).1, (last before).2] at exceeds
    exact split?_isSome (Nat.le_of_lt_succ exceeds) after

end Item

/-- A text, cut into items from left to right.  An opener wins over a closer, and
either over a single byte; where both are the same there are only closers. -/
inductive Cut (opener closer : Bytes) : Bytes → List Item → Prop where
  | nil : Cut opener closer [] []
  | opener {rest : Bytes} {items : List Item} (nests : opener ≠ closer)
      (later : Cut opener closer rest items) :
      Cut opener closer (opener ++ rest) (.opener :: items)
  | closer {rest : Bytes} {items : List Item}
      (noOpener : opener ≠ closer → ¬ opener <+: closer ++ rest)
      (later : Cut opener closer rest items) :
      Cut opener closer (closer ++ rest) (.closer :: items)
  | byte {b : UInt8} {rest : Bytes} {items : List Item}
      (noOpener : opener ≠ closer → ¬ opener <+: b :: rest)
      (noCloser : ¬ closer <+: b :: rest)
      (later : Cut opener closer rest items) :
      Cut opener closer (b :: rest) (.byte b :: items)

section Cut

variable {opener closer text : Bytes} {items : List Item}

theorem Cut.text_eq (cut : Cut opener closer text items) :
    text = items.flatMap (Item.text opener closer) := by
  induction cut with
  | nil => rfl
  | opener nests later ih => rw [List.flatMap_cons, ← ih, Item.text]
  | closer noOpener later ih => rw [List.flatMap_cons, ← ih, Item.text]
  | byte noOpener noCloser later ih => rw [List.flatMap_cons, ← ih]; rfl

/-- The text behind a closer begins where the items before it and the closer end. -/
theorem Cut.behind_closer {start : Nat} {before after : List Item} (inside : start ≤ text.length)
    (cut : Cut opener closer (text.drop start) (before ++ .closer :: after)) :
    start + (before.flatMap (Item.text opener closer)).length + closer.length ≤ text.length ∧
      after.flatMap (Item.text opener closer) =
        text.drop (start + (before.flatMap (Item.text opener closer)).length + closer.length) := by
  have whole := cut.text_eq
  rw [List.flatMap_append, List.flatMap_cons, Item.text, ← List.append_assoc] at whole
  have lengths := congrArg List.length whole
  rw [List.length_drop, List.length_append, List.length_append] at lengths
  constructor
  · omega
  · rw [Nat.add_assoc, ← List.length_append, ← List.drop_drop, whole, List.drop_left]

theorem body_opener (nonempty : opener ≠ []) (nests : opener ≠ closer) (depth : Nat)
    (rest : Bytes) :
    body opener closer depth (opener ++ rest) =
      (body opener closer (depth + 1) rest).map fun (inner, rest) => (opener ++ inner, rest) := by
  obtain ⟨first, others, rfl⟩ := List.exists_cons_of_ne_nil nonempty
  have begins : (first :: others).isPrefixOf (first :: (others ++ rest)) = true :=
    List.isPrefixOf_iff_prefix.mpr (List.prefix_append _ _)
  rw [List.cons_append, body.eq_def]
  simp [nests, begins]

theorem body_closer (nonempty : closer ≠ []) {rest : Bytes}
    (noOpener : opener ≠ closer → ¬ opener <+: closer ++ rest) (depth : Nat) :
    body opener closer depth (closer ++ rest) =
      match depth with
      | 0 => some ([], rest)
      | depth + 1 =>
          (body opener closer depth rest).map fun (inner, rest) => (closer ++ inner, rest) := by
  obtain ⟨first, others, rfl⟩ := List.exists_cons_of_ne_nil nonempty
  have begins : (first :: others).isPrefixOf (first :: (others ++ rest)) = true :=
    List.isPrefixOf_iff_prefix.mpr (List.prefix_append _ _)
  have refuted : ¬ (opener ≠ first :: others ∧
      opener.isPrefixOf (first :: (others ++ rest)) = true) := by
    rintro ⟨nests, opens⟩
    exact noOpener nests (List.isPrefixOf_iff_prefix.mp opens)
  rw [List.cons_append, body.eq_def]
  dsimp only
  rw [if_neg refuted, if_pos begins]
  cases depth <;> simp

theorem body_byte {b : UInt8} {rest : Bytes}
    (noOpener : opener ≠ closer → ¬ opener <+: b :: rest) (noCloser : ¬ closer <+: b :: rest)
    (depth : Nat) :
    body opener closer depth (b :: rest) =
      (body opener closer depth rest).map fun (inner, rest) => (b :: inner, rest) := by
  have refuted : ¬ (opener ≠ closer ∧ opener.isPrefixOf (b :: rest) = true) := by
    rintro ⟨nests, opens⟩
    exact noOpener nests (List.isPrefixOf_iff_prefix.mp opens)
  rw [body.eq_def]
  dsimp only
  rw [if_neg refuted, if_neg fun closes => noCloser (List.isPrefixOf_iff_prefix.mp closes)]

/-- Reading a body is counting on the items of the text. -/
theorem Cut.body_eq (openerNonempty : opener ≠ []) (closerNonempty : closer ≠ [])
    (cut : Cut opener closer text items) (depth : Nat) :
    body opener closer depth text = (Item.split? depth items).map fun (before, after) =>
      (before.flatMap (Item.text opener closer), after.flatMap (Item.text opener closer)) := by
  induction cut generalizing depth with
  | nil => rw [body.eq_def]; rfl
  | opener nests later ih =>
      rw [body_opener openerNonempty nests, ih]
      simp [Item.split?, Item.text, Function.comp_def]
  | closer noOpener later ih =>
      rw [body_closer closerNonempty noOpener]
      cases depth with
      | zero => simp [Item.split?, ← later.text_eq]
      | succ depth =>
          simp [ih, Item.split?, Item.text, Function.comp_def]
  | byte noOpener noCloser later ih =>
      rw [body_byte noOpener noCloser, ih]
      simp [Item.split?, Item.text, Function.comp_def]

theorem exists_cut (openerNonempty : opener ≠ []) (closerNonempty : closer ≠ []) (text : Bytes) :
    ∃ items, Cut opener closer text items := by
  induction size : text.length using Nat.strongRecOn generalizing text with
  | ind size ih =>
      have shorter : ∀ {front rest : Bytes}, front ≠ [] → text = front ++ rest →
          ∃ items, Cut opener closer rest items := by
        rintro front rest nonempty rfl
        have positive := List.length_pos_iff.mpr nonempty
        rw [List.length_append] at size
        exact ih rest.length (by omega) rest rfl
      by_cases opens : opener ≠ closer ∧ opener <+: text
      · obtain ⟨nests, rest, rfl⟩ := opens
        obtain ⟨items, later⟩ := shorter openerNonempty rfl
        exact ⟨_, .opener nests later⟩
      have noOpener : opener ≠ closer → ¬ opener <+: text :=
        fun nests begins => opens ⟨nests, begins⟩
      by_cases closes : closer <+: text
      · obtain ⟨rest, rfl⟩ := closes
        obtain ⟨items, later⟩ := shorter closerNonempty rfl
        exact ⟨_, .closer noOpener later⟩
      cases text with
      | nil => exact ⟨[], .nil⟩
      | cons b rest =>
          obtain ⟨items, later⟩ := shorter (List.cons_ne_nil b []) rfl
          exact ⟨_, .byte noOpener closes later⟩

theorem Cut.unique (openerNonempty : opener ≠ []) (closerNonempty : closer ≠ [])
    {others : List Item} (cut : Cut opener closer text items)
    (other : Cut opener closer text others) : others = items := by
  induction cut generalizing others with
  | nil =>
      generalize empty : ([] : Bytes) = text at other
      cases other with
      | nil => rfl
      | opener nests later => exact absurd (List.append_eq_nil_iff.mp empty.symm).1 openerNonempty
      | closer noOpener later =>
          exact absurd (List.append_eq_nil_iff.mp empty.symm).1 closerNonempty
      | byte noOpener noCloser later => cases empty
  | @opener rest items nests later ih =>
      generalize spelled : opener ++ rest = text at other
      cases other with
      | nil => exact absurd (List.append_eq_nil_iff.mp spelled).1 openerNonempty
      | opener _ other =>
          obtain rfl := List.append_cancel_left spelled
          rw [ih other]
      | closer noOpener other => exact absurd ⟨_, spelled⟩ (noOpener nests)
      | byte noOpener noCloser other => exact absurd ⟨_, spelled⟩ (noOpener nests)
  | @closer rest items noOpener later ih =>
      generalize spelled : closer ++ rest = text at other noOpener
      cases other with
      | nil => exact absurd (List.append_eq_nil_iff.mp spelled).1 closerNonempty
      | opener nests other => exact absurd (List.prefix_append _ _) (noOpener nests)
      | closer _ other =>
          obtain rfl := List.append_cancel_left spelled
          rw [ih other]
      | byte _ noCloser other => exact absurd ⟨_, spelled⟩ noCloser
  | @byte b rest items noOpener noCloser later ih =>
      generalize spelled : b :: rest = text at other noOpener noCloser
      cases other with
      | nil => cases spelled
      | opener nests other => exact absurd (List.prefix_append _ _) (noOpener nests)
      | closer _ other => exact absurd (List.prefix_append _ _) noCloser
      | byte _ _ other =>
          cases spelled
          rw [ih other]

end Cut

section SingleBytes

/-- The item of a byte when both delimiters are single bytes. -/
def Item.ofByte (opener closer b : UInt8) : Item :=
  if b = opener then .opener else if b = closer then .closer else .byte b

variable {opener closer : UInt8}

theorem prefix_cons_iff_eq {b : UInt8} {rest : Bytes} : [opener] <+: b :: rest ↔ b = opener := by
  rw [List.cons_prefix_cons]
  simp [eq_comm]

theorem cut_ofByte (differ : opener ≠ closer) (text : Bytes) :
    Cut [opener] [closer] text (text.map (Item.ofByte opener closer)) := by
  have nests : [opener] ≠ [closer] := by simpa using differ
  induction text with
  | nil => exact .nil
  | cons b text ih =>
      rw [List.map_cons, Item.ofByte]
      split
      · next opens =>
          subst opens
          exact .opener nests ih
      · next notOpener =>
          have noOpener : [opener] ≠ [closer] → ¬ [opener] <+: b :: text :=
            fun _ begins => notOpener (prefix_cons_iff_eq.mp begins)
          split
          · next closes =>
              subst closes
              exact .closer noOpener ih
          · next notCloser =>
              exact .byte noOpener (fun begins => notCloser (prefix_cons_iff_eq.mp begins)) ih

theorem count_map_ofByte (differ : opener ≠ closer) (text : Bytes) :
    (text.map (Item.ofByte opener closer)).count .opener = text.count opener ∧
      (text.map (Item.ofByte opener closer)).count .closer = text.count closer := by
  induction text with
  | nil => exact ⟨rfl, rfl⟩
  | cons b text ih =>
      obtain ⟨openers, closers⟩ := ih
      rw [List.map_cons, List.count_cons, List.count_cons, List.count_cons, List.count_cons,
        openers, closers, Item.ofByte]
      by_cases opens : b = opener
      · subst opens
        simp [differ]
      · by_cases closes : b = closer
        · subst closes
          simp [opens]
        · simp [opens, closes]

theorem closesOff_map_ofByte (differ : opener ≠ closer) {text : Bytes}
    (balanced : Balanced opener closer text) :
    ClosesOff .opener .closer 0 (text.map (Item.ofByte opener closer)) := by
  apply closesOff_zero_iff.mpr
  constructor
  · obtain ⟨openers, closers⟩ := count_map_ofByte differ text
    rw [openers, closers]
    exact balanced.level
  · intro front begins
    rw [List.prefix_iff_eq_take.mp begins, ← List.map_take]
    obtain ⟨openers, closers⟩ := count_map_ofByte differ (text.take front.length)
    rw [openers, closers]
    exact balanced.held _ (List.take_prefix _ _)

/-- A balanced inside is read up to its closer, whatever follows. -/
theorem read?_balanced (differ : opener ≠ closer) {inner : Bytes}
    (balanced : Balanced opener closer inner) (rest : Bytes) :
    read? [opener] [closer] (opener :: (inner ++ closer :: rest)) = some ⟨inner, true, rest⟩ := by
  have found : body [opener] [closer] 0 (inner ++ closer :: rest) = some (inner, rest) := by
    have closes : Item.ofByte opener closer closer = .closer := by
      simp [Item.ofByte, differ.symm]
    rw [(cut_ofByte differ _).body_eq (List.cons_ne_nil _ _) (List.cons_ne_nil _ _),
      List.map_append, List.map_cons, closes,
      Item.split?_of_closesOff (closesOff_map_ofByte differ balanced), Option.map_some]
    dsimp only
    rw [← (cut_ofByte differ inner).text_eq, ← (cut_ofByte differ rest).text_eq]
  simp [read?, found]

end SingleBytes

section Extract

variable {text opener closer : Bytes} {offset : Nat}

theorem extract_of_read? {block : Block} (openerNonempty : opener ≠ [])
    (closerNonempty : closer ≠ []) (inside : offset ≤ text.length)
    (found : read? opener closer (text.drop offset) = some block) :
    extract text offset opener closer = .ok (.found block) := by
  have usable : (opener.isEmpty || closer.isEmpty) = false := by
    simp [openerNonempty, closerNonempty]
  rw [extract.eq_def, usable]
  simp [Nat.not_lt.mpr inside, found]

theorem read?_of_extract {block : Block}
    (extracted : extract text offset opener closer = .ok (.found block)) :
    read? opener closer (text.drop offset) = some block := by
  rw [extract.eq_def] at extracted
  split at extracted
  · cases extracted
  · simp only at extracted
    split at extracted
    · cases extracted
    · cases found : read? opener closer (text.drop offset) with
      | none => simp [found] at extracted
      | some other => simpa [found] using extracted

/-- The block behind an opener, by the items of the text that follows. -/
theorem read?_eq (openerNonempty : opener ≠ []) (closerNonempty : closer ≠ [])
    (begins : opener <+: text) {items : List Item}
    (cut : Cut opener closer (text.drop opener.length) items) :
    read? opener closer text =
      match Item.split? 0 items with
      | some (before, after) =>
          some ⟨before.flatMap (Item.text opener closer), true,
            after.flatMap (Item.text opener closer)⟩
      | none => some ⟨text.drop opener.length, false, []⟩ := by
  have usable : (opener.isEmpty || closer.isEmpty || !opener.isPrefixOf text) = false := by
    simp [openerNonempty, closerNonempty, List.isPrefixOf_iff_prefix.mpr begins]
  rw [read?, usable, cut.body_eq openerNonempty closerNonempty]
  cases Item.split? 0 items with
  | none => rfl
  | some parts => rfl

end Extract

/-- What is found behind an opener.  The text there is cut into items in one way.  The
block is closed exactly when some closer makes the closers outnumber the openers; its
inside is then the text before the first such closer, which is balanced, and its rest
begins just past it.  Otherwise the inside is all of the text.  With two different
bytes for delimiters, every balanced inside is found again. -/
theorem extract_exact :
    (∀ (text opener closer : Bytes) (offset : Nat), offset ≤ text.length →
      opener ≠ [] → closer ≠ [] → opener <+: text.drop offset →
      ∃ (items : List Item) (block : Block),
        Cut opener closer (text.drop (offset + opener.length)) items ∧
        (∀ others, Cut opener closer (text.drop (offset + opener.length)) others →
          others = items) ∧
        extract text offset opener closer = .ok (.found block) ∧
        (block.closed = true ↔ ∃ before after, items = before ++ .closer :: after ∧
          (before ++ [Item.closer]).count .opener < (before ++ [Item.closer]).count .closer) ∧
        (block.closed = true → ∃ before after, items = before ++ .closer :: after ∧
          Balanced Item.opener .closer before ∧
          block.inner = before.flatMap (Item.text opener closer) ∧
          offset + opener.length + block.inner.length + closer.length ≤ text.length ∧
          block.rest =
            text.drop (offset + opener.length + block.inner.length + closer.length)) ∧
        (block.closed = false →
          block.inner = text.drop (offset + opener.length) ∧ block.rest = [])) ∧
    (∀ opener closer : UInt8, opener ≠ closer → ∀ inner, Balanced opener closer inner →
      ∀ front rest,
        extract (front ++ ([opener] ++ inner ++ [closer] ++ rest)) front.length [opener] [closer] =
          .ok (.found ⟨inner, true, rest⟩)) := by
  constructor
  · intro text opener closer offset inside openerNonempty closerNonempty begins
    obtain ⟨items, cut⟩ := exists_cut openerNonempty closerNonempty
      (text.drop (offset + opener.length))
    have read := read?_eq openerNonempty closerNonempty begins (by rwa [List.drop_drop])
    rw [List.drop_drop] at read
    have exceeds := @Item.split?_isSome_iff items
    cases split : Item.split? 0 items with
    | none =>
        rw [split] at read exceeds
        refine ⟨items, _, cut, fun others => cut.unique openerNonempty closerNonempty,
          extract_of_read? openerNonempty closerNonempty inside read, exceeds, ?_, ?_⟩
        · intro closed
          cases closed
        · intro _
          exact ⟨rfl, rfl⟩
    | some parts =>
        obtain ⟨before, after⟩ := parts
        obtain ⟨rfl, closes⟩ := Item.split?_sound split
        rw [split] at read exceeds
        refine ⟨_, _, cut, fun others => cut.unique openerNonempty closerNonempty,
          extract_of_read? openerNonempty closerNonempty inside read, exceeds, ?_, ?_⟩
        · intro _
          refine ⟨before, after, rfl, closesOff_zero_iff.mp closes, rfl, ?_⟩
          have fits := begins.length_le
          rw [List.length_drop] at fits
          exact cut.behind_closer (by omega)
        · intro closed
          cases closed
  · intro opener closer differ inner balanced front rest
    apply extract_of_read? (List.cons_ne_nil _ _) (List.cons_ne_nil _ _) (by simp)
    rw [List.drop_left]
    simpa using read?_balanced differ balanced rest

/-- With a closer that the opener begins with, and with single bytes. -/
theorem extract_exact_overlapping :
    (∃ block, extract (bytes "-<<a<<b<c<d") 1 (bytes "<<") (bytes "<") = .ok (.found block) ∧
      block.closed = true) ∧
    extract (bytes "-(a(b)c))") 1 [byte '('] [byte ')'] =
      .ok (.found ⟨bytes "a(b)c", true, bytes ")"⟩) := by
  constructor
  · obtain ⟨items, block, -, unique, found, closed, -⟩ := extract_exact.1 (bytes "-<<a<<b<c<d")
      (bytes "<<") (bytes "<") 1 (by decide) (by decide) (by decide) (by decide)
    have cut : Cut (bytes "<<") (bytes "<") (bytes "a<<b<c<d")
        [.byte (byte 'a'), .opener, .byte (byte 'b'), .closer, .byte (byte 'c'), .closer,
          .byte (byte 'd')] :=
      .byte (by decide) (by decide) <| .opener (by decide) <| .byte (by decide) (by decide) <|
        .closer (by decide) <| .byte (by decide) (by decide) <| .closer (by decide) <|
        .byte (by decide) (by decide) .nil
    obtain rfl := unique _ cut
    exact ⟨block, found, closed.mpr ⟨[.byte (byte 'a'), .opener, .byte (byte 'b'), .closer,
      .byte (byte 'c')], [.byte (byte 'd')], rfl, by decide⟩⟩
  · exact extract_exact.2 (byte '(') (byte ')') (by decide) (bytes "a(b)c") (by decide)
      (bytes "-") (bytes ")")

end Block

end Stencil
