import Stencil.Diff.Listing

/-!
# Reading a listing of changes

Whoever reads a listing passes through both texts at once: a removed line passes a line
of the old text, an added line one of the new text, a kept line one of each, and a mark
passes lines that stand in both.  A listing that can be read in this way shows the lines
under their numbers, in order, and what it does not remove or add is the same in both
texts.
-/

namespace Stencil.Diff

/-- The two texts that a listing is about. -/
inductive Side where
  | old
  | new

namespace Entry

/-- The line of a text that an entry shows, with its number. -/
def line? : Side → Entry → Option (Nat × Bytes)
  | .old, .removed number line => some (number, line)
  | .new, .added number line => some (number, line)
  | .new, .kept number line => some (number, line)
  | _, _ => none

/-- The number of the line of a text that an entry shows. -/
def number? (side : Side) (entry : Entry) : Option Nat :=
  (entry.line? side).map Prod.fst

/-- The number of an added line. -/
def added? : Entry → Option Nat
  | .added number _ => some number
  | _ => none

end Entry

/-- How many lines of each text were passed. -/
structure Position where
  old : Nat := 0
  new : Nat := 0

namespace Position

/-- How many lines are left out in front of an entry. -/
def hidden (position : Position) : Entry → Nat
  | .gap => 0
  | .removed number _ => number - 1 - position.old
  | .added number _ | .kept number _ => number - 1 - position.new

/-- Passes an entry and the lines that are left out in front of it. -/
def pass (position : Position) (entry : Entry) : Position :=
  let old := position.old + position.hidden entry
  let new := position.new + position.hidden entry
  match entry with
  | .gap => ⟨old, new⟩
  | .removed _ _ => ⟨old + 1, new⟩
  | .added _ _ => ⟨old, new + 1⟩
  | .kept _ _ => ⟨old + 1, new + 1⟩

end Position

/-- The position behind some entries. -/
def reached (entries : List Entry) : Position :=
  entries.foldl Position.pass {}

/-- The lines without those whose number is given; `passed` lines stand in front of
them. -/
def withoutFrom (numbers : List Nat) : Nat → List Bytes → List Bytes
  | _, [] => []
  | passed, line :: lines =>
      if passed + 1 ∈ numbers then withoutFrom numbers (passed + 1) lines
      else line :: withoutFrom numbers (passed + 1) lines

section Without

variable {numbers : List Nat} {passed : Nat}

theorem withoutFrom_of_le {number : Nat} (behind : number ≤ passed) (numbers : List Nat)
    (lines : List Bytes) :
    withoutFrom (number :: numbers) passed lines = withoutFrom numbers passed lines := by
  induction lines generalizing passed with
  | nil => rfl
  | cons line lines ih =>
      have other : passed + 1 ≠ number := by omega
      have further := ih (Nat.le_succ_of_le behind)
      simp only [withoutFrom, List.mem_cons, other, false_or, further]

theorem withoutFrom_cons (ahead : ∀ number ∈ numbers, passed + 1 < number) (line : Bytes)
    (lines : List Bytes) :
    withoutFrom numbers passed (line :: lines) =
      line :: withoutFrom numbers (passed + 1) lines := by
  have absent : passed + 1 ∉ numbers := fun member => Nat.lt_irrefl _ (ahead _ member)
  rw [withoutFrom, if_neg absent]

theorem withoutFrom_append {lines : List Bytes}
    (ahead : ∀ number ∈ numbers, passed + lines.length < number) (rest : List Bytes) :
    withoutFrom numbers passed (lines ++ rest) =
      lines ++ withoutFrom numbers (passed + lines.length) rest := by
  induction lines generalizing passed with
  | nil => rfl
  | cons line lines ih =>
      rw [List.length_cons, Nat.add_comm lines.length, ← Nat.add_assoc] at ahead ⊢
      have first : ∀ number ∈ numbers, passed + 1 < number := by
        intro number member
        have := ahead number member
        omega
      rw [List.cons_append, withoutFrom_cons first, ih ahead, List.cons_append]

theorem withoutFrom_nil (passed : Nat) (lines : List Bytes) :
    withoutFrom [] passed lines = lines := by
  induction lines generalizing passed with
  | nil => rfl
  | cons line lines ih => simp [withoutFrom, ih]

end Without

/-- The lines that lie ahead of a position. -/
structure Ahead extends Position where
  oldLines : List Bytes
  newLines : List Bytes

namespace Ahead

/-- How many lines of a text were passed. -/
def passed (ahead : Ahead) : Side → Nat
  | .old => ahead.old
  | .new => ahead.new

/-- The lines of a text that lie ahead. -/
def lines (ahead : Ahead) : Side → List Bytes
  | .old => ahead.oldLines
  | .new => ahead.newLines

end Ahead

/-- Lines that stand in both texts lie between two places. -/
structure Skips (ahead : Ahead) (hidden : List Bytes) (later : Ahead) : Prop where
  passed : ∀ side, later.passed side = ahead.passed side + hidden.length
  lines : ∀ side, ahead.lines side = hidden ++ later.lines side

theorem Skips.refl (ahead : Ahead) : Skips ahead [] ahead :=
  ⟨fun _ => rfl, fun _ => rfl⟩

theorem Skips.trans {first second third : Ahead} {hidden more : List Bytes}
    (left : Skips first hidden second) (right : Skips second more third) :
    Skips first (hidden ++ more) third := by
  constructor
  · intro side
    rw [right.passed, left.passed, List.length_append, Nat.add_assoc]
  · intro side
    rw [left.lines, right.lines, List.append_assoc]

theorem skips_append (old new : Nat) (hidden a b : List Bytes) :
    Skips ⟨⟨old, new⟩, hidden ++ a, hidden ++ b⟩ hidden
      ⟨⟨old + hidden.length, new + hidden.length⟩, a, b⟩ := by
  constructor <;> intro side <;> cases side <;> rfl

/-- Reading an entry that shows a line. -/
inductive Step : Ahead → Entry → Ahead → Prop where
  | removed (old new : Nat) (line : Bytes) (a b : List Bytes) :
      Step ⟨⟨old, new⟩, line :: a, b⟩ (.removed (old + 1) line) ⟨⟨old + 1, new⟩, a, b⟩
  | added (old new : Nat) (line : Bytes) (a b : List Bytes) :
      Step ⟨⟨old, new⟩, a, line :: b⟩ (.added (new + 1) line) ⟨⟨old, new + 1⟩, a, b⟩
  | kept (old new : Nat) (line : Bytes) (a b : List Bytes) :
      Step ⟨⟨old, new⟩, line :: a, line :: b⟩ (.kept (new + 1) line)
        ⟨⟨old + 1, new + 1⟩, a, b⟩

/-- The mark for lines that are left out, unless there are none. -/
def mark : List Bytes → List Entry
  | [] => []
  | _ :: _ => [.gap]

/-- A listing that can be read from a place on.  What lies behind its end is the same in
both texts. -/
inductive Walks : Ahead → List Entry → Prop where
  | done {ahead : Ahead} (same : ahead.oldLines = ahead.newLines) : Walks ahead []
  | shown {ahead later next : Ahead} {hidden : List Bytes} {entry : Entry} {entries : List Entry}
      (skips : Skips ahead hidden later) (step : Step later entry next)
      (rest : Walks next entries) : Walks ahead (mark hidden ++ entry :: entries)

theorem Step.walks {ahead next : Ahead} {entry : Entry} {entries : List Entry}
    (step : Step ahead entry next) (rest : Walks next entries) : Walks ahead (entry :: entries) :=
  .shown (.refl ahead) step rest

theorem eq_gap_of_mem_mark {hidden : List Bytes} {entry : Entry} (member : entry ∈ mark hidden) :
    entry = .gap := by
  cases hidden with
  | nil => cases member
  | cons line hidden => exact List.mem_singleton.mp member

theorem filterMap_mark {α : Type} {field? : Entry → Option α} (silent : field? .gap = none)
    (hidden : List Bytes) : (mark hidden).filterMap field? = [] := by
  rw [List.filterMap_eq_nil_iff]
  intro entry member
  rw [eq_gap_of_mem_mark member]
  exact silent

section Step

variable {ahead next : Ahead} {entry : Entry}

theorem Step.ne_gap (step : Step ahead entry next) : entry ≠ .gap := by
  cases step <;> exact nofun

/-- A step passes the line it shows. -/
theorem Step.passes (step : Step ahead entry next) (side : Side) :
    ∃ lines : List Bytes, next.passed side = ahead.passed side + lines.length ∧
      ahead.lines side = lines ++ next.lines side ∧
      ∀ number line, entry.line? side = some (number, line) →
        number = ahead.passed side + 1 ∧ lines = [line] := by
  cases step with
  | removed old new line a b =>
      cases side with
      | old => exact ⟨[line], rfl, rfl, by rintro _ _ ⟨⟩; exact ⟨rfl, rfl⟩⟩
      | new => exact ⟨[], rfl, rfl, nofun⟩
  | added old new line a b =>
      cases side with
      | old => exact ⟨[], rfl, rfl, nofun⟩
      | new => exact ⟨[line], rfl, rfl, by rintro _ _ ⟨⟩; exact ⟨rfl, rfl⟩⟩
  | kept old new line a b =>
      cases side with
      | old => exact ⟨[line], rfl, rfl, nofun⟩
      | new => exact ⟨[line], rfl, rfl, by rintro _ _ ⟨⟩; exact ⟨rfl, rfl⟩⟩

/-- The numbers tell where a step begins and where it ends. -/
theorem Step.position_eq {later : Ahead} {hidden : List Bytes} (step : Step later entry next)
    (skips : Skips ahead hidden later) :
    ahead.toPosition.hidden entry = hidden.length ∧
      ahead.toPosition.pass entry = next.toPosition := by
  have old : later.old = ahead.old + hidden.length := skips.passed .old
  have new : later.new = ahead.new + hidden.length := skips.passed .new
  cases step <;> dsimp only at old new <;> subst old new <;>
    simp [Position.hidden, Position.pass]

end Step

/-- Where an entry behind a mark and a shown line can stand. -/
theorem split_shown {hidden : List Bytes} {first entry : Entry} {entries front back : List Entry}
    (split : mark hidden ++ first :: entries = front ++ entry :: back) :
    front = [] ∧ entry = .gap ∧ back = first :: entries ∨
      front = mark hidden ∧ entry = first ∧ back = entries ∨
      ∃ rest, front = mark hidden ++ first :: rest ∧ entries = rest ++ entry :: back := by
  cases hidden with
  | nil =>
      rcases front with _ | ⟨_, front⟩ <;> cases split
      · exact .inr (.inl ⟨rfl, rfl, rfl⟩)
      · exact .inr (.inr ⟨front, rfl, rfl⟩)
  | cons line hidden =>
      rcases front with _ | ⟨_, _ | ⟨_, front⟩⟩ <;> cases split
      · exact .inl ⟨rfl, rfl, rfl⟩
      · exact .inr (.inl ⟨rfl, rfl, rfl⟩)
      · exact .inr (.inr ⟨front, rfl, rfl⟩)

namespace Walks

variable {ahead : Ahead} {entries : List Entry}

/-- Every line that is shown stands in its text under its number. -/
theorem line_eq (walks : Walks ahead entries) {side : Side} {entry : Entry}
    (member : entry ∈ entries) {number : Nat} {line : Bytes}
    (shows : entry.line? side = some (number, line)) :
    ∃ i, number = ahead.passed side + i + 1 ∧ (ahead.lines side)[i]? = some line := by
  induction walks with
  | done same => cases member
  | @shown ahead later next hidden first entries skips step rest ih =>
      obtain ⟨lines, passed, split, own⟩ := step.passes side
      have skipped := skips.passed side
      rw [skips.lines side, split]
      rcases List.mem_append.mp member with marked | member
      · cases eq_gap_of_mem_mark marked
        cases side <;> cases shows
      rcases List.mem_cons.mp member with rfl | member
      · obtain ⟨rfl, rfl⟩ := own number line shows
        exact ⟨hidden.length, by omega, by simp⟩
      · obtain ⟨i, rfl, found⟩ := ih member
        refine ⟨hidden.length + lines.length + i, by omega, ?_⟩
        rw [← List.append_assoc, List.getElem?_append_right (by simp)]
        simpa [Nat.add_sub_cancel_left] using found

theorem passed_lt (walks : Walks ahead entries) {side : Side} {number : Nat}
    (member : number ∈ entries.filterMap (Entry.number? side)) : ahead.passed side < number := by
  obtain ⟨entry, shown, shows⟩ := List.mem_filterMap.mp member
  obtain ⟨⟨_, line⟩, showsLine, rfl⟩ := Option.map_eq_some_iff.mp shows
  obtain ⟨i, here, -⟩ := walks.line_eq shown showsLine
  omega

theorem passed_lt_added (walks : Walks ahead entries) {number : Nat}
    (member : number ∈ entries.filterMap Entry.added?) : ahead.new < number := by
  obtain ⟨entry, shown, shows⟩ := List.mem_filterMap.mp member
  have isNew : number ∈ entries.filterMap (Entry.number? .new) := by
    refine List.mem_filterMap.mpr ⟨entry, shown, ?_⟩
    cases entry <;> cases shows
    rfl
  exact walks.passed_lt isNew

/-- The numbers of the lines that are shown of a text increase. -/
theorem increase (walks : Walks ahead entries) (side : Side) :
    (entries.filterMap (Entry.number? side)).Pairwise (· < ·) := by
  induction walks with
  | done same => exact .nil
  | @shown ahead later next hidden first entries skips step rest ih =>
      rw [List.filterMap_append, filterMap_mark (by cases side <;> rfl), List.nil_append,
        List.filterMap_cons]
      cases shows : first.number? side with
      | none => exact ih
      | some number =>
          obtain ⟨⟨_, line⟩, showsLine, rfl⟩ := Option.map_eq_some_iff.mp shows
          obtain ⟨lines, passed, -, own⟩ := step.passes side
          obtain ⟨rfl, rfl⟩ := own _ line showsLine
          refine List.pairwise_cons.mpr ⟨?_, ih⟩
          intro number member
          have further := rest.passed_lt member
          rw [passed] at further
          exact further

/-- What is neither removed nor added is the same in both texts. -/
theorem same_rest (walks : Walks ahead entries) :
    withoutFrom (entries.filterMap (Entry.number? .old)) ahead.old ahead.oldLines =
      withoutFrom (entries.filterMap Entry.added?) ahead.new ahead.newLines := by
  induction walks with
  | done same =>
      rw [List.filterMap_nil, List.filterMap_nil, withoutFrom_nil, withoutFrom_nil, same]
  | @shown ahead later next hidden first entries skips step rest ih =>
      have onward := step.walks rest
      rw [List.filterMap_append, filterMap_mark rfl, List.nil_append, List.filterMap_append,
        filterMap_mark rfl, List.nil_append]
      have oldLines : ahead.oldLines = hidden ++ later.oldLines := skips.lines .old
      have newLines : ahead.newLines = hidden ++ later.newLines := skips.lines .new
      have oldPassed : later.old = ahead.old + hidden.length := skips.passed .old
      have newPassed : later.new = ahead.new + hidden.length := skips.passed .new
      rw [oldLines, newLines, withoutFrom_append, withoutFrom_append, ← oldPassed,
        ← newPassed]
      · congr 1
        cases step with
        | removed old new line a b =>
            have gone : old + 1 ∈ (old + 1) :: entries.filterMap (Entry.number? .old) :=
              List.mem_cons_self
            refine Eq.trans (if_pos gone) ?_
            exact (withoutFrom_of_le (Nat.le_refl _) _ a).trans ih
        | added old new line a b =>
            have gone : new + 1 ∈ (new + 1) :: entries.filterMap Entry.added? :=
              List.mem_cons_self
            refine Eq.symm (Eq.trans (if_pos gone) ?_)
            exact (withoutFrom_of_le (Nat.le_refl _) _ b).trans ih.symm
        | kept old new line a b =>
            calc
              _ = line :: withoutFrom _ (old + 1) a :=
                withoutFrom_cons (fun _ => rest.passed_lt) line a
              _ = line :: withoutFrom _ (new + 1) b := congrArg (line :: ·) ih
              _ = _ := (withoutFrom_cons (fun _ => rest.passed_lt_added) line b).symm
      · rw [← newPassed]
        exact fun _ => onward.passed_lt_added
      · rw [← oldPassed]
        exact fun _ => onward.passed_lt

/-- A mark stands in front of a line exactly when lines in front of it are left out. -/
theorem gap_iff (walks : Walks ahead entries) {front back : List Entry} {entry : Entry}
    (split : entries = front ++ entry :: back) (shown : entry ≠ .gap) :
    front.getLast? = some .gap ↔
      0 < (front.foldl Position.pass ahead.toPosition).hidden entry := by
  induction walks generalizing front with
  | done same => simp at split
  | @shown ahead later next hidden first entries skips step rest ih =>
      obtain ⟨length, reaches⟩ := step.position_eq skips
      have unmoved : (mark hidden).foldl Position.pass ahead.toPosition = ahead.toPosition := by
        cases hidden <;> rfl
      obtain ⟨-, isGap, -⟩ | ⟨rfl, rfl, rfl⟩ | ⟨later, rfl, onward⟩ := split_shown split
      · exact absurd isGap shown
      · rw [unmoved, length]
        cases hidden <;> simp [mark]
      · rw [List.foldl_append, unmoved, List.foldl_cons, reaches, ← ih onward]
        rw [List.getLast?_append, List.getLast?_cons, Option.some_or]
        cases later.getLast? <;> simp [step.ne_gap]

/-- A mark stands in front of a line that is shown. -/
theorem shown_of_gap (walks : Walks ahead entries) {front back : List Entry}
    (split : entries = front ++ .gap :: back) :
    ∃ entry rest, back = entry :: rest ∧ entry ≠ .gap := by
  induction walks generalizing front with
  | done same => simp at split
  | @shown ahead later next hidden first entries skips step rest ih =>
      obtain ⟨-, -, rfl⟩ | ⟨-, isFirst, -⟩ | ⟨later, -, onward⟩ := split_shown split
      · exact ⟨first, entries, rfl, step.ne_gap⟩
      · exact absurd isFirst.symm step.ne_gap
      · exact ih onward

end Walks

end Stencil.Diff
