import Stencil.Engine.Anchor

/-!
# The next anchor

`next?` finds the least place at which an anchor begins.  Of the search it is
given only one law is used: the occurrence it reports is one that ends first.
`firstEnd?` is such a search.
-/

namespace Stencil.Anchor

/-- One of the anchors stands at the occurrence. -/
def Occurs (anchors : List Bytes) (text : Bytes) (occurrence : Occurrence) : Prop :=
  ∃ anchor ∈ anchors, anchor <+: text.drop occurrence.start ∧
    occurrence.stop = occurrence.start + anchor.length

/-- The answer of a search from an offset on: nothing only where no anchor
occurs, and otherwise an occurrence that ends first. -/
def Answers (anchors : List Bytes) (text : Bytes) (offset : Nat) : Option Occurrence → Prop
  | none => ∀ other : Occurrence, offset ≤ other.start → ¬ Occurs anchors text other
  | some occurrence => Occurs anchors text occurrence ∧ offset ≤ occurrence.start ∧
      ∀ other : Occurrence, offset ≤ other.start → Occurs anchors text other →
        occurrence.stop ≤ other.stop

/-- The search answers for every choice of nonempty anchors. -/
def Search.Lawful (find : Search) : Prop :=
  ∀ (anchors : List Bytes) (text : Bytes) (offset : Nat),
    anchors ≠ [] → [] ∉ anchors → offset ≤ text.length →
      Answers anchors text offset (find anchors text offset)

theorem beginsAt_iff {anchors : List Bytes} {text : Bytes} :
    beginsAt anchors text = true ↔ ∃ anchor ∈ anchors, anchor <+: text := by
  simp [beginsAt, List.any_eq_true, List.isPrefixOf_iff_prefix]

theorem Occurs.stop_le {anchors : List Bytes} {text : Bytes} {occurrence : Occurrence}
    (nonempty : [] ∉ anchors) (occurs : Occurs anchors text occurrence) :
    occurrence.start < occurrence.stop ∧ occurrence.stop ≤ text.length := by
  obtain ⟨anchor, member, stands, stop⟩ := occurs
  have positive : 0 < anchor.length := by
    apply List.length_pos_iff.mpr
    rintro rfl
    exact nonempty member
  have fits := stands.length_le
  rw [List.length_drop] at fits
  omega

theorem length_le_longest {anchors : List Bytes} {anchor : Bytes} (member : anchor ∈ anchors) :
    anchor.length ≤ longest anchors := by
  -- the running maximum bounds its start and every anchor it has passed
  have bounded : ∀ (rest : List Bytes) (start : Nat),
      start ≤ rest.foldl (fun n anchor => max n anchor.length) start ∧
        ∀ other ∈ rest, other.length ≤
          rest.foldl (fun n anchor => max n anchor.length) start := by
    intro rest
    induction rest with
    | nil =>
        intro start
        exact ⟨Nat.le_refl _, by simp⟩
    | cons first rest ih =>
        intro start
        obtain ⟨above, each⟩ := ih (max start first.length)
        refine ⟨Nat.le_trans (Nat.le_max_left _ _) above, ?_⟩
        intro other found
        rcases List.mem_cons.mp found with rfl | later
        · exact Nat.le_trans (Nat.le_max_right _ _) above
        · exact each other later
  exact (bounded anchors 0).2 anchor member

theorem firstStart_spec (anchors : List Bytes) (text : Bytes) {offset limit : Nat}
    (ordered : offset ≤ limit) :
    offset ≤ firstStart anchors text offset limit ∧
      firstStart anchors text offset limit ≤ limit ∧
      (∀ place, offset ≤ place → place < firstStart anchors text offset limit →
        beginsAt anchors (text.drop place) = false) ∧
      (firstStart anchors text offset limit < limit →
        beginsAt anchors (text.drop (firstStart anchors text offset limit)) = true) := by
  fun_induction firstStart anchors text offset limit with
  | case1 offset below begins =>
      exact ⟨Nat.le_refl _, ordered, by omega, fun _ => begins⟩
  | case2 offset below silent ih =>
      obtain ⟨above, bound, before, begins⟩ := ih below
      refine ⟨by omega, bound, ?_, begins⟩
      intro place atLeast less
      rcases Nat.eq_or_lt_of_le atLeast with rfl | beyond
      · simpa using silent
      · exact before place beyond less
  | case3 offset notBelow =>
      exact ⟨ordered, Nat.le_refl _, by omega, fun impossible => absurd impossible (by omega)⟩

section Next

variable {find : Search} {anchors : List Bytes} {text : Bytes} {offset : Nat}

theorem Answers.beginsAt_eq_false (silent : Answers anchors text offset none) {place : Nat}
    (atLeast : offset ≤ place) : beginsAt anchors (text.drop place) = false := by
  rw [← Bool.not_eq_true, beginsAt_iff]
  rintro ⟨anchor, member, stands⟩
  exact silent ⟨place, place + anchor.length⟩ atLeast ⟨anchor, member, stands, rfl⟩

/-- Where the search answers that there is none, no anchor begins. -/
theorem next?_none_of_answers (nonempty : [] ∉ anchors)
    (answer : offset < text.length → Answers anchors text offset (find anchors text offset))
    (absent : next? find anchors text offset = none) :
    ∀ place, offset ≤ place → beginsAt anchors (text.drop place) = false := by
  intro place atLeast
  unfold next? at absent
  split at absent
  · next beyond =>
      apply Answers.beginsAt_eq_false _ atLeast
      intro other fromOffset occurs
      have within := occurs.stop_le nonempty
      omega
  · next inside =>
      have silent := answer (Nat.lt_of_not_le inside)
      rw [Option.map_eq_none_iff.mp absent] at silent
      exact silent.beginsAt_eq_false atLeast

/-- The place that was found is the least one, from the offset on, at which an
anchor begins. -/
theorem next?_some_of_answers (nonempty : [] ∉ anchors)
    (answer : offset < text.length → Answers anchors text offset (find anchors text offset))
    {place : Nat} (found : next? find anchors text offset = some place) :
    offset ≤ place ∧ place < text.length ∧ beginsAt anchors (text.drop place) = true ∧
      ∀ earlier, offset ≤ earlier → earlier < place →
        beginsAt anchors (text.drop earlier) = false := by
  unfold next? at found
  split at found
  · cases found
  next inside =>
    obtain ⟨occurrence, reported, rfl⟩ := Option.map_eq_some_iff.mp found
    have answer := answer (Nat.lt_of_not_le inside)
    rw [reported] at answer
    obtain ⟨occurs, atLeast, first⟩ := answer
    obtain ⟨_, stopInside⟩ := occurs.stop_le nonempty
    obtain ⟨anchor, member, stands, stop⟩ := occurs
    have short := length_le_longest member
    obtain ⟨above, bound, before, begins⟩ := firstStart_spec anchors text
      (show max offset (occurrence.stop - longest anchors) ≤ occurrence.start by omega)
    refine ⟨by omega, by omega, ?_, ?_⟩
    · rcases Nat.eq_or_lt_of_le bound with same | less
      · rw [same]
        exact beginsAt_iff.mpr ⟨anchor, member, stands⟩
      · exact begins less
    · intro earlier fromOffset less
      by_cases near : occurrence.stop - longest anchors ≤ earlier
      · exact before earlier (by omega) less
      · -- an anchor that begins further back would end before the one reported
        rw [← Bool.not_eq_true, beginsAt_iff]
        rintro ⟨other, otherMember, otherStands⟩
        have ends := first ⟨earlier, earlier + other.length⟩ fromOffset
          ⟨other, otherMember, otherStands, rfl⟩
        have otherShort := length_le_longest otherMember
        dsimp only at ends
        omega

theorem next?_eq_some_iff_of_answers (nonempty : [] ∉ anchors)
    (answer : offset < text.length → Answers anchors text offset (find anchors text offset))
    {place : Nat} :
    next? find anchors text offset = some place ↔
      offset ≤ place ∧ beginsAt anchors (text.drop place) = true ∧
        ∀ earlier, offset ≤ earlier → earlier < place →
          beginsAt anchors (text.drop earlier) = false := by
  constructor
  · intro found
    obtain ⟨above, _, begins, least⟩ := next?_some_of_answers nonempty answer found
    exact ⟨above, begins, least⟩
  · rintro ⟨above, begins, least⟩
    cases found : next? find anchors text offset with
    | none =>
        rw [next?_none_of_answers nonempty answer found place above] at begins
        cases begins
    | some other =>
        obtain ⟨otherAbove, _, otherBegins, otherLeast⟩ :=
          next?_some_of_answers nonempty answer found
        rcases Nat.lt_trichotomy other place with before | same | behind
        · rw [least other otherAbove before] at otherBegins
          cases otherBegins
        · rw [same]
        · rw [otherLeast place above behind] at begins
          cases begins

theorem Search.Lawful.answers (lawful : find.Lawful) (someAnchor : anchors ≠ [])
    (nonempty : [] ∉ anchors) (inside : offset < text.length) :
    Answers anchors text offset (find anchors text offset) :=
  lawful anchors text offset someAnchor nonempty (Nat.le_of_lt inside)

theorem next?_eq_none (lawful : find.Lawful) (someAnchor : anchors ≠ [])
    (nonempty : [] ∉ anchors) (absent : next? find anchors text offset = none) :
    ∀ place, offset ≤ place → beginsAt anchors (text.drop place) = false :=
  next?_none_of_answers nonempty (lawful.answers someAnchor nonempty) absent

theorem next?_eq_some (lawful : find.Lawful) (someAnchor : anchors ≠ [])
    (nonempty : [] ∉ anchors) {place : Nat}
    (found : next? find anchors text offset = some place) :
    offset ≤ place ∧ place < text.length ∧ beginsAt anchors (text.drop place) = true ∧
      ∀ earlier, offset ≤ earlier → earlier < place →
        beginsAt anchors (text.drop earlier) = false :=
  next?_some_of_answers nonempty (lawful.answers someAnchor nonempty) found

theorem next?_eq_some_iff (lawful : find.Lawful) (someAnchor : anchors ≠ [])
    (nonempty : [] ∉ anchors) {place : Nat} :
    next? find anchors text offset = some place ↔
      offset ≤ place ∧ beginsAt anchors (text.drop place) = true ∧
        ∀ earlier, offset ≤ earlier → earlier < place →
          beginsAt anchors (text.drop earlier) = false :=
  next?_eq_some_iff_of_answers nonempty (lawful.answers someAnchor nonempty)

/-- A text in front only moves the place that is found. -/
theorem next?_append (lawful : find.Lawful) (someAnchor : anchors ≠ [])
    (nonempty : [] ∉ anchors) (before text : Bytes) (offset : Nat) :
    next? find anchors (before ++ text) (before.length + offset) =
      (next? find anchors text offset).map (before.length + ·) := by
  have dropped : ∀ place, (before ++ text).drop (before.length + place) = text.drop place :=
    fun place => List.drop_length_add_append place
  apply Option.ext
  intro place
  rw [next?_eq_some_iff lawful someAnchor nonempty, Option.map_eq_some_iff]
  constructor
  · rintro ⟨above, begins, least⟩
    obtain ⟨gap, rfl⟩ : ∃ gap, place = before.length + gap := ⟨place - before.length, by omega⟩
    refine ⟨gap, (next?_eq_some_iff lawful someAnchor nonempty).mpr ⟨?_, ?_, ?_⟩, rfl⟩
    · omega
    · rw [← dropped gap]
      exact begins
    · intro earlier atLeast less
      rw [← dropped earlier]
      exact least (before.length + earlier) (by omega) (by omega)
  · rintro ⟨gap, found, rfl⟩
    obtain ⟨above, begins, least⟩ :=
      (next?_eq_some_iff lawful someAnchor nonempty).mp found
    refine ⟨by omega, ?_, ?_⟩
    · rw [dropped gap]
      exact begins
    · intro earlier atLeast less
      obtain ⟨front, rfl⟩ : ∃ front, earlier = before.length + front :=
        ⟨earlier - before.length, by omega⟩
      rw [dropped front]
      exact least front (by omega) (by omega)

end Next

theorem endingAt?_eq_some {anchors : List Bytes} {stop : Nat} {before : Bytes}
    {occurrence : Occurrence} (found : endingAt? anchors stop before = some occurrence) :
    ∃ anchor ∈ anchors, anchor <:+ before.reverse ∧
      occurrence = ⟨stop - anchor.length, stop⟩ := by
  obtain ⟨anchor, first, rfl⟩ := Option.map_eq_some_iff.mp found
  have begins := List.find?_some first
  rw [List.isPrefixOf_iff_prefix, ← List.reverse_reverse before, List.reverse_prefix] at begins
  exact ⟨anchor, List.mem_of_find?_eq_some first, begins, rfl⟩

theorem endingAt?_eq_none {anchors : List Bytes} {stop : Nat} {before : Bytes}
    (absent : endingAt? anchors stop before = none) :
    ∀ anchor ∈ anchors, ¬ anchor <:+ before.reverse := by
  intro anchor member ends
  apply List.find?_eq_none.mp (Option.map_eq_none_iff.mp absent) anchor member
  rw [List.isPrefixOf_iff_prefix, ← List.reverse_reverse before, List.reverse_prefix]
  exact ends

/-- The occurrences that end where the passed bytes end are the anchors the
passed bytes end in. -/
theorem suffix_iff_occurs {text anchor passed rest : Bytes} {offset : Nat}
    (split : text.drop offset = passed ++ rest) :
    anchor <:+ passed ↔
      ∃ start, offset ≤ start ∧ anchor <+: text.drop start ∧
        start + anchor.length = offset + passed.length := by
  constructor
  · rintro ⟨front, rfl⟩
    refine ⟨offset + front.length, Nat.le_add_right _ _, ⟨rest, ?_⟩, ?_⟩
    · rw [← List.drop_drop, split, List.append_assoc, List.drop_left]
    · rw [List.length_append, Nat.add_assoc]
  · rintro ⟨start, atLeast, ⟨after, stands⟩, stop⟩
    obtain ⟨front, rfl⟩ : ∃ front, start = offset + front := ⟨start - offset, by omega⟩
    rw [← List.drop_drop, split, List.drop_append_of_le_length (by omega)] at stands
    have same := (List.append_inj stands (by rw [List.length_drop]; omega)).1
    rw [same]
    exact List.drop_suffix _ _

/-- The bytes up to `stop` are passed, and no anchor has ended among them. -/
structure Progress (anchors : List Bytes) (text : Bytes) (offset : Nat) (passed : Bytes)
    (stop : Nat) (rest : Bytes) : Prop where
  split : text.drop offset = passed.reverse ++ rest
  place : stop = offset + passed.length
  late : ∀ other : Occurrence, offset ≤ other.start → Occurs anchors text other →
    stop ≤ other.stop

namespace Progress

variable {anchors : List Bytes} {text passed rest : Bytes} {offset stop : Nat}

theorem answers (progress : Progress anchors text offset passed stop rest)
    {occurrence : Occurrence} (found : endingAt? anchors stop passed = some occurrence) :
    Answers anchors text offset (some occurrence) := by
  obtain ⟨anchor, member, ends, rfl⟩ := endingAt?_eq_some found
  obtain ⟨start, atLeast, stands, sum⟩ := (suffix_iff_occurs progress.split).mp ends
  have place := progress.place
  rw [List.length_reverse] at sum
  have same : stop - anchor.length = start := by omega
  rw [same]
  exact ⟨⟨anchor, member, stands, by dsimp only; omega⟩, atLeast, progress.late⟩

theorem later (progress : Progress anchors text offset passed stop rest)
    (absent : endingAt? anchors stop passed = none) {other : Occurrence}
    (atLeast : offset ≤ other.start) (occurs : Occurs anchors text other) :
    stop + 1 ≤ other.stop := by
  have bound := progress.late other atLeast occurs
  obtain ⟨anchor, member, stands, sum⟩ := occurs
  have notHere : ¬ anchor <:+ passed.reverse := endingAt?_eq_none absent anchor member
  rw [suffix_iff_occurs progress.split, List.length_reverse] at notHere
  rcases Nat.eq_or_lt_of_le bound with same | less
  · have place := progress.place
    exact (notHere ⟨other.start, atLeast, stands, by omega⟩).elim
  · exact less

theorem step {b : UInt8} (progress : Progress anchors text offset passed stop (b :: rest))
    (absent : endingAt? anchors stop passed = none) :
    Progress anchors text offset (b :: passed) (stop + 1) rest where
  split := by
    rw [progress.split]
    simp
  place := by
    rw [progress.place, List.length_cons, Nat.add_assoc]
  late := fun _ atLeast occurs => progress.later absent atLeast occurs

end Progress

theorem firstEndFrom_answers {anchors : List Bytes} {text passed rest : Bytes}
    {offset stop : Nat} (nonempty : [] ∉ anchors)
    (progress : Progress anchors text offset passed stop rest) :
    Answers anchors text offset (firstEndFrom anchors passed stop rest) := by
  induction rest generalizing passed stop with
  | nil =>
      unfold firstEndFrom
      cases found : endingAt? anchors stop passed with
      | some occurrence => exact progress.answers found
      | none =>
          intro other atLeast occurs
          have beyond := progress.later found atLeast occurs
          have bound := occurs.stop_le nonempty
          have place := progress.place
          have lengths := congrArg List.length progress.split
          simp only [List.length_drop, List.length_append, List.length_reverse,
            List.length_nil] at lengths
          omega
  | cons b rest ih =>
      unfold firstEndFrom
      cases found : endingAt? anchors stop passed with
      | some occurrence => exact progress.answers found
      | none => exact ih (progress.step found)

/-- Passing over the text byte by byte finds an occurrence that ends first. -/
theorem firstEnd?_lawful : Search.Lawful firstEnd? := by
  intro anchors text offset _ nonempty _
  apply firstEndFrom_answers nonempty
  refine ⟨rfl, rfl, ?_⟩
  intro other atLeast occurs
  have within := occurs.stop_le nonempty
  omega

/-- All lawful searches lead to the same places. -/
theorem next?_lawful {find : Search} (lawful : find.Lawful) {anchors : List Bytes}
    (someAnchor : anchors ≠ []) (nonempty : [] ∉ anchors) {text : Bytes} {offset : Nat} :
    next? find anchors text offset = next? firstEnd? anchors text offset := by
  apply Option.ext
  intro place
  rw [next?_eq_some_iff lawful someAnchor nonempty,
    next?_eq_some_iff firstEnd?_lawful someAnchor nonempty]

/-- The next place is the least one, from the offset on, at which an anchor stands, and
there is no next place only where none does.  The search is asked once, and its answer
need only be an occurrence that ends first. -/
theorem next?_exact {find : Search} {anchors : List Bytes} (nonempty : [] ∉ anchors)
    {text : Bytes} {offset : Nat}
    (answer : offset < text.length → Answers anchors text offset (find anchors text offset)) :
    (∀ place, next? find anchors text offset = some place ↔
      offset ≤ place ∧ place < text.length ∧ (∃ anchor ∈ anchors, anchor <+: text.drop place) ∧
        ∀ earlier, offset ≤ earlier → earlier < place →
          ¬ ∃ anchor ∈ anchors, anchor <+: text.drop earlier) ∧
      (next? find anchors text offset = none ↔
        ∀ place, offset ≤ place → place < text.length →
          ¬ ∃ anchor ∈ anchors, anchor <+: text.drop place) := by
  simp only [← beginsAt_iff, Bool.not_eq_true]
  refine ⟨fun place => ⟨next?_some_of_answers nonempty answer, ?_⟩, ?_, ?_⟩
  · rintro ⟨above, -, begins, least⟩
    exact (next?_eq_some_iff_of_answers nonempty answer).mpr ⟨above, begins, least⟩
  · intro absent place above _
    exact next?_none_of_answers nonempty answer absent place above
  · intro silent
    rw [Option.eq_none_iff_forall_ne_some]
    intro place found
    obtain ⟨above, inside, begins, -⟩ := next?_some_of_answers nonempty answer found
    rw [silent place above inside] at begins
    cases begins

/-- Anchors inside of anchors: the one that ends first is not the one that begins
first, and from inside of the longer one only the shorter one is found. -/
theorem next?_exact_nested :
    next? firstEnd? [bytes "abc", bytes "b", bytes "zzzz"] (bytes "xabc") 0 = some 1 ∧
      next? firstEnd? [bytes "abc", bytes "b", bytes "zzzz"] (bytes "xabc") 2 = some 2 ∧
      next? firstEnd? [bytes "abc", bytes "b", bytes "zzzz"] (bytes "xabc") 3 = none := by
  have answers : ∀ offset, offset < (bytes "xabc").length →
      Answers [bytes "abc", bytes "b", bytes "zzzz"] (bytes "xabc") offset
        (firstEnd? [bytes "abc", bytes "b", bytes "zzzz"] (bytes "xabc") offset) :=
    fun _ => firstEnd?_lawful.answers (by decide) (by decide)
  refine ⟨((next?_exact (by decide) (answers 0)).1 1).mpr ⟨by decide, by decide, by decide, ?_⟩,
    ((next?_exact (by decide) (answers 2)).1 2).mpr ⟨by decide, by decide, by decide, ?_⟩,
    (next?_exact (by decide) (answers 3)).2.mpr ?_⟩
  · intro earlier _ less
    obtain rfl : earlier = 0 := by omega
    decide
  · intro earlier above less
    omega
  · intro place above inside
    obtain rfl : place = 3 := by
      have size : (bytes "xabc").length = 4 := by decide
      omega
    decide

end Stencil.Anchor
