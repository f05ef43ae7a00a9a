import Stencil.Proofs.EditScript
import Stencil.Proofs.ListingWalk

/-!
# What a listing of changes shows

The listing of a script can be read along both texts.  A kept line is listed only where
fewer than the wanted number of kept lines lie between it and a change, and a mark stands
wherever kept lines in front of a listed line are left out.
-/

namespace Stencil.Diff

namespace Entry

/-- The entry removes or adds a line. -/
def isChange : Entry → Bool
  | .removed _ _ | .added _ _ => true
  | _ => false

/-- How many kept lines are listed since a change, if nothing is left out, when that many
are listed without this entry. -/
def distance (since : Option Nat) : Entry → Option Nat
  | .gap => none
  | .kept _ _ => since.map (· + 1)
  | .removed _ _ | .added _ _ => some 0

end Entry

/-- How many kept lines are listed in front of the next change, if nothing is left out on
the way to it. -/
def toChange : List Entry → Option Nat
  | [] => none
  | entry :: entries => entry.distance (toChange entries)

/-- The line with a number.  The first line has the number one. -/
def lineAt? (lines : List Bytes) : Nat → Option Bytes
  | 0 => none
  | number + 1 => lines[number]?

theorem mem_of_lineAt? {lines : List Bytes} {number : Nat} {line : Bytes}
    (found : lineAt? lines number = some line) : line ∈ lines := by
  cases number with
  | zero => cases found
  | succ number => exact List.mem_of_getElem? found

/-- A listing from which one can tell what became of a text.  Up to `around` kept lines
are listed next to a change. -/
structure Faithful (a b : List Bytes) (around : Nat) (entries : List Entry) : Prop where
  removed : ∀ number line, .removed number line ∈ entries → lineAt? a number = some line
  added : ∀ number line, .added number line ∈ entries → lineAt? b number = some line
  kept : ∀ number line, .kept number line ∈ entries → lineAt? b number = some line
  old_increase : (entries.filterMap (Entry.number? .old)).Pairwise (· < ·)
  new_increase : (entries.filterMap (Entry.number? .new)).Pairwise (· < ·)
  /-- Without the removed and the added lines the texts are the same. -/
  same_rest : withoutFrom (entries.filterMap (Entry.number? .old)) 0 a =
    withoutFrom (entries.filterMap Entry.added?) 0 b
  near : ∀ front number line back, entries = front ++ .kept number line :: back →
    ∃ distance < around, toChange back = some distance ∨ toChange front.reverse = some distance
  gap_iff : ∀ front entry back, entries = front ++ entry :: back → entry ≠ .gap →
    (front.getLast? = some .gap ↔ 0 < (reached front).hidden entry)
  shown_of_gap : ∀ front back, entries = front ++ .gap :: back →
    ∃ entry rest, back = entry :: rest ∧ entry ≠ .gap

section Numbered

variable {number old new : Nat} {line : Bytes} {lines a b : List Bytes} {entries : List Entry}

theorem numbered_cons (entry : Nat → Bytes → Entry) (number : Nat) (line : Bytes)
    (lines : List Bytes) :
    numbered entry number (line :: lines) =
      entry (number + 1) line :: numbered entry (number + 1) lines := by
  simp [numbered, List.mapIdx_cons, Nat.add_assoc, Nat.add_comm 1]

theorem numbered_append (entry : Nat → Bytes → Entry) (number : Nat) (lines more : List Bytes) :
    numbered entry number (lines ++ more) =
      numbered entry number lines ++ numbered entry (number + lines.length) more := by
  induction lines generalizing number with
  | nil => rfl
  | cons line lines ih =>
      rw [List.cons_append, numbered_cons, numbered_cons, ih, List.length_cons,
        Nat.add_comm lines.length, Nat.add_assoc]
      rfl

theorem walks_removed (rest : Walks ⟨⟨old + lines.length, new⟩, a, b⟩ entries) :
    Walks ⟨⟨old, new⟩, lines ++ a, b⟩ (numbered .removed old lines ++ entries) := by
  induction lines generalizing old with
  | nil => exact rest
  | cons line lines ih =>
      rw [List.length_cons, Nat.add_comm lines.length, ← Nat.add_assoc] at rest
      rw [numbered_cons]
      exact (Step.removed old new line (lines ++ a) b).walks (ih rest)

theorem walks_added (rest : Walks ⟨⟨old, new + lines.length⟩, a, b⟩ entries) :
    Walks ⟨⟨old, new⟩, a, lines ++ b⟩ (numbered .added new lines ++ entries) := by
  induction lines generalizing new with
  | nil => exact rest
  | cons line lines ih =>
      rw [List.length_cons, Nat.add_comm lines.length, ← Nat.add_assoc] at rest
      rw [numbered_cons]
      exact (Step.added old new line a (lines ++ b)).walks (ih rest)

theorem walks_kept (rest : Walks ⟨⟨old + lines.length, new + lines.length⟩, a, b⟩ entries) :
    Walks ⟨⟨old, new⟩, lines ++ a, lines ++ b⟩ (numbered .kept new lines ++ entries) := by
  induction lines generalizing old new with
  | nil => exact rest
  | cons line lines ih =>
      rw [List.length_cons, Nat.add_comm lines.length, ← Nat.add_assoc, ← Nat.add_assoc] at rest
      rw [numbered_cons]
      exact (Step.kept old new line (lines ++ a) (lines ++ b)).walks (ih rest)

/-- Lines that stand in both texts can be left out in front of a line that is shown. -/
theorem walks_hidden {hidden : List Bytes} {entry : Entry} (shown : entry ≠ .gap)
    (rest : Walks ⟨⟨old + hidden.length, new + hidden.length⟩, a, b⟩ (entry :: entries)) :
    Walks ⟨⟨old, new⟩, hidden ++ a, hidden ++ b⟩ (mark hidden ++ entry :: entries) := by
  generalize listed : entry :: entries = all at rest
  cases rest with
  | done same => cases listed
  | @shown _ later next passedOver first others skips step rest =>
      cases passedOver with
      | nil =>
          cases listed
          have further := (skips_append old new hidden a b).trans skips
          rw [List.append_nil] at further
          exact .shown further step rest
      | cons line passedOver =>
          cases listed
          exact absurd rfl shown

end Numbered

section Near

variable {around : Nat} {since : Option Nat} {entries rest : List Entry}

/-- Every kept line is near a change, if that many kept lines are listed since the last
change in front. -/
def Near (around : Nat) : Option Nat → List Entry → Prop
  | _, [] => True
  | since, entry :: entries =>
      (∀ number line, entry = .kept number line →
        ∃ distance < around, toChange entries = some distance ∨ since = some distance) ∧
      Near around (entry.distance since) entries

theorem Near.of_split {done front back : List Entry}
    (near : Near around (toChange done.reverse) entries) {number : Nat} {line : Bytes}
    (split : entries = front ++ .kept number line :: back) :
    ∃ distance < around,
      toChange back = some distance ∨ toChange (done ++ front).reverse = some distance := by
  induction front generalizing done entries with
  | nil =>
      subst split
      rw [List.append_nil]
      exact near.1 number line rfl
  | cons entry front ih =>
      subst split
      have further : Near around (toChange (done ++ [entry]).reverse)
          (front ++ .kept number line :: back) := by
        rw [List.reverse_append]
        exact near.2
      have found := ih further rfl
      rwa [List.append_assoc] at found

theorem toChange_kept (number : Nat) (lines : List Bytes) (rest : List Entry) :
    toChange (numbered .kept number lines ++ rest) =
      (toChange rest).map (· + lines.length) := by
  induction lines generalizing number with
  | nil => simp [numbered]
  | cons line lines ih =>
      rw [numbered_cons, List.cons_append, toChange, ih, Entry.distance, Option.map_map]
      rfl

/-- Kept lines behind a change. -/
theorem near_behind {passed number : Nat} {lines : List Bytes}
    (few : passed + lines.length ≤ around)
    (near : Near around (some (passed + lines.length)) rest) :
    Near around (some passed) (numbered .kept number lines ++ rest) := by
  induction lines generalizing passed number with
  | nil => exact near
  | cons line lines ih =>
      rw [List.length_cons, Nat.add_comm lines.length, ← Nat.add_assoc] at few near
      rw [numbered_cons]
      refine ⟨?_, ih few near⟩
      intro _ _ _
      exact ⟨passed, by omega, .inr rfl⟩

/-- Kept lines in front of a change. -/
theorem near_before {number : Nat} {lines : List Bytes} (few : lines.length ≤ around)
    (change : toChange rest = some 0) (near : ∀ since, Near around since rest) :
    Near around since (numbered .kept number lines ++ rest) := by
  induction lines generalizing since number with
  | nil => exact near since
  | cons line lines ih =>
      rw [List.length_cons] at few
      rw [numbered_cons, List.cons_append]
      refine ⟨?_, ih (Nat.le_of_succ_le few)⟩
      intro _ _ _
      refine ⟨lines.length, few, .inl ?_⟩
      rw [toChange_kept, change]
      simp

theorem near_change {entry : Entry} (isChange : entry.isChange = true)
    (near : Near around (some 0) rest) : Near around since (entry :: rest) := by
  cases entry with
  | gap => cases isChange
  | kept number line => cases isChange
  | removed number line => exact ⟨nofun, near⟩
  | added number line => exact ⟨nofun, near⟩

theorem near_changes {entry : Nat → Bytes → Entry}
    (isChange : ∀ number line, (entry number line).isChange = true) (number : Nat)
    (lines : List Bytes) (near : Near around (some 0) rest) :
    Near around (some 0) (numbered entry number lines ++ rest) := by
  induction lines generalizing number with
  | nil => exact near
  | cons line lines ih =>
      rw [numbered_cons, List.cons_append]
      exact near_change (isChange _ _) (ih _)

/-- Behind a change it does not matter what was in front of it. -/
theorem Near.of_change {other : Option Nat} (near : Near around since entries)
    (change : toChange entries = some 0) : Near around other entries := by
  cases entries with
  | nil => trivial
  | cons entry entries =>
      cases entry with
      | gap => cases change
      | kept number line =>
          obtain ⟨_, -, positive⟩ := Option.map_eq_some_iff.mp change
          exact absurd positive (Nat.succ_ne_zero _)
      | removed number line => exact near_change rfl near.2
      | added number line => exact near_change rfl near.2

end Near

section Listing

variable {around old new : Nat} {pieces : List Piece} {rest : List Entry}

/-- What is listed for a change begins with a change. -/
theorem toChange_listed {removed added : List Bytes} (filled : removed ≠ [] ∨ added ≠ [])
    (around old new : Nat) (pieces : List Piece) :
    toChange (listAfterChange around old new (.changed removed added :: pieces)) = some 0 := by
  rw [listAfterChange]
  cases removed with
  | cons line removed =>
      rw [numbered_cons]
      rfl
  | nil =>
      cases added with
      | cons line added =>
          rw [numbered_cons]
          rfl
      | nil => simp at filled

theorem ne_gap_of_toChange {distance : Nat} (change : toChange rest = some distance) :
    ∃ entry later, rest = entry :: later ∧ entry ≠ .gap := by
  cases rest with
  | nil => cases change
  | cons entry later =>
      refine ⟨entry, later, rfl, ?_⟩
      rintro rfl
      cases change

/-- A listing behind a change, from a place on. -/
structure Listed (around : Nat) (ahead : Ahead) (entries : List Entry) : Prop where
  walks : Walks ahead entries
  near : Near around (some 0) entries

/-- In front of a change the end of a stretch of kept lines is listed. -/
theorem leading_eq (around number : Nat) (lines : List Bytes) :
    ∃ hidden shown, lines = hidden ++ shown ∧ shown.length ≤ around ∧
      leading around number lines =
        mark hidden ++ numbered .kept (number + hidden.length) shown := by
  have length : (lines.take (lines.length - around)).length = lines.length - around := by
    rw [List.length_take]
    omega
  refine ⟨lines.take (lines.length - around), lines.drop (lines.length - around),
    (List.take_append_drop _ _).symm, ?_, ?_⟩
  · rw [List.length_drop]
    omega
  · rw [leading, length]
    congr 1
    split
    · next none => rw [none, List.take_zero, mark]
    · next some =>
        cases hidden : lines.take (lines.length - around) with
        | nil =>
            rw [hidden] at length
            exact absurd length.symm some
        | cons line hidden => rfl

theorem leading_listed {lines a b : List Bytes}
    (listed : Listed around ⟨⟨old + lines.length, new + lines.length⟩, a, b⟩ rest)
    (change : toChange rest = some 0) (since : Option Nat) :
    Walks ⟨⟨old, new⟩, lines ++ a, lines ++ b⟩ (leading around new lines ++ rest) ∧
      Near around since (leading around new lines ++ rest) := by
  obtain ⟨walks, near⟩ := listed
  obtain ⟨hidden, shown, rfl, few, leads⟩ := leading_eq around new lines
  rw [List.length_append, ← Nat.add_assoc, ← Nat.add_assoc] at walks
  have shownWalks := walks_kept walks
  have shownNear : ∀ since,
      Near around since (numbered .kept (new + hidden.length) shown ++ rest) :=
    fun since => near_before few change fun since => near.of_change change
  have ahead := toChange_kept (new + hidden.length) shown rest
  rw [change] at ahead
  obtain ⟨entry, later, split, notGap⟩ := ne_gap_of_toChange ahead
  rw [leads, List.append_assoc, List.append_assoc, List.append_assoc]
  rw [split] at shownWalks shownNear ⊢
  constructor
  · exact walks_hidden notGap shownWalks
  · cases hidden with
    | nil => exact shownNear since
    | cons line hidden => exact ⟨nofun, shownNear none⟩

/-- Behind a change the beginning of a stretch of kept lines is listed, and in front of
the next change its end. -/
theorem between_eq (around number : Nat) (lines : List Bytes) :
    ∃ front back, lines = front ++ back ∧ front.length ≤ around ∧
      (between around number lines = numbered .kept number front ++
          numbered .kept (number + front.length) back ∧ back.length ≤ around ∨
        between around number lines = numbered .kept number front ++
          leading around (number + front.length) back) := by
  refine ⟨lines.take around, lines.drop around, (List.take_append_drop _ _).symm,
    List.length_take_le _ _, ?_⟩
  rw [between]
  split
  · next short =>
      refine .inl ⟨?_, by rw [List.length_drop]; omega⟩
      rw [← numbered_append, List.take_append_drop]
  · next long =>
      have length : (lines.take around).length = around := by
        rw [List.length_take]
        omega
      rw [length]
      exact .inr rfl

theorem between_listed {lines a b : List Bytes}
    (listed : Listed around ⟨⟨old + lines.length, new + lines.length⟩, a, b⟩ rest)
    (change : toChange rest = some 0) :
    Listed around ⟨⟨old, new⟩, lines ++ a, lines ++ b⟩ (between around new lines ++ rest) := by
  obtain ⟨front, back, rfl, few, split⟩ := between_eq around new lines
  rw [List.length_append, ← Nat.add_assoc, ← Nat.add_assoc] at listed
  rw [← Nat.zero_add front.length] at few
  rw [List.append_assoc, List.append_assoc]
  obtain ⟨split, fewBack⟩ | split := split
  · rw [split, List.append_assoc]
    constructor
    · exact walks_kept (walks_kept listed.walks)
    · apply near_behind few
      exact near_before fewBack change fun since => listed.near.of_change change
  · obtain ⟨walks, near⟩ := leading_listed listed change (some (0 + front.length))
    rw [split, List.append_assoc]
    exact ⟨walks_kept walks, near_behind few near⟩

theorem listAfterChange_listed (alternates : Alternates pieces) (around old new : Nat) :
    Listed around ⟨⟨old, new⟩, before pieces, after pieces⟩
      (listAfterChange around old new pieces) := by
  induction alternates generalizing old new with
  | nil => exact ⟨.done rfl, trivial⟩
  | @changed removed added pieces filled alternates ih =>
      obtain ⟨walks, near⟩ := ih (old + removed.length) (new + added.length)
      rw [listAfterChange, List.append_assoc, before_changed, after_changed]
      constructor
      · exact walks_removed (walks_added walks)
      · apply near_changes (fun _ _ => rfl) old removed
        exact near_changes (fun _ _ => rfl) new added near
  | last lines =>
      have few : 0 + (lines.take around).length ≤ around := by
        rw [Nat.zero_add]
        exact List.length_take_le _ _
      have listed : Listed around
          ⟨⟨old, new⟩, lines.take around ++ lines.drop around,
            lines.take around ++ lines.drop around⟩
          (numbered .kept new (lines.take around) ++ []) :=
        ⟨walks_kept (.done rfl), near_behind few trivial⟩
      rw [List.take_append_drop, List.append_nil] at listed
      rw [listAfterChange, before_kept, after_kept]
      simpa [before, after] using listed
  | @kept lines removed added pieces alternates ih =>
      have listed := ih (old + lines.length) (new + lines.length)
      rw [listAfterChange, before_kept, after_kept]
      · exact between_listed listed (toChange_listed alternates.filled _ _ _ _)
      · simp

theorem listing_walks (alternates : Alternates pieces) (around : Nat) :
    Walks ⟨⟨0, 0⟩, before pieces, after pieces⟩ (listing around pieces) ∧
      Near around none (listing around pieces) := by
  cases alternates with
  | nil => exact ⟨.done rfl, trivial⟩
  | last lines => exact ⟨.done rfl, trivial⟩
  | changed filled alternates =>
      have all := Alternates.changed filled alternates
      obtain ⟨walks, near⟩ := listAfterChange_listed all around 0 0
      exact ⟨walks, near.of_change (toChange_listed filled _ _ _ _)⟩
  | @kept lines removed added pieces alternates =>
      have change := toChange_listed alternates.filled around (0 + lines.length)
        (0 + lines.length) pieces
      have listed := leading_listed (listAfterChange_listed alternates around _ _) change none
      rw [Nat.zero_add] at listed
      exact listed

end Listing

theorem lineAt?_of_walks {a b : List Bytes} {entries : List Entry}
    (walks : Walks ⟨⟨0, 0⟩, a, b⟩ entries) (side : Side) {entry : Entry}
    (member : entry ∈ entries) {number : Nat} {line : Bytes}
    (shows : entry.line? side = some (number, line)) :
    lineAt? (Ahead.lines ⟨⟨0, 0⟩, a, b⟩ side) number = some line := by
  obtain ⟨i, rfl, found⟩ := walks.line_eq member shows
  have start : Ahead.passed ⟨⟨0, 0⟩, a, b⟩ side = 0 := by
    cases side <;> rfl
  rwa [start, Nat.zero_add]

/-- A listing that can be read along both texts can be relied on. -/
theorem faithful_of_walks {a b : List Bytes} {around : Nat} {entries : List Entry}
    (walks : Walks ⟨⟨0, 0⟩, a, b⟩ entries) (near : Near around none entries) :
    Faithful a b around entries where
  removed := by
    intro number line member
    exact lineAt?_of_walks walks .old member rfl
  added := by
    intro number line member
    exact lineAt?_of_walks walks .new member rfl
  kept := by
    intro number line member
    exact lineAt?_of_walks walks .new member rfl
  old_increase := walks.increase .old
  new_increase := walks.increase .new
  same_rest := walks.same_rest
  near := by
    intro front number line back split
    have start : Near around (toChange ([] : List Entry).reverse) entries := near
    exact start.of_split split
  gap_iff := by
    intro front entry back split shown
    exact walks.gap_iff split shown
  shown_of_gap := by
    intro front back split
    exact walks.shown_of_gap split

theorem changes_faithful (old new : Bytes) (around : Int) :
    Faithful (linesOf old) (linesOf new) around.toNat (changes old new around) := by
  have alternates := script_alternates (linesOf old) (linesOf new)
  obtain ⟨walks, near⟩ := listing_walks alternates around.toNat
  rw [before_script, after_script] at walks
  exact faithful_of_walks walks near

end Stencil.Diff
