import Stencil.Diff.Script

/-!
# What an edit script says

A script starts from the one list of lines and leads to the other: its stretches
follow each other in both lists without a break, and what it keeps stands in both.
Kept stretches do not meet, and every change removes or adds a line.
-/

namespace Stencil.Diff

/-- The lines of a run stand in both lists. -/
structure Run.Shared (run : Run) (a b : List Bytes) : Prop where
  same : (a.drop run.left).take run.size = (b.drop run.right).take run.size
  left_le : run.left + run.size ≤ a.length
  right_le : run.right + run.size ≤ b.length

theorem commonPrefix_shared (a b : List Bytes) :
    Run.Shared { size := commonPrefix a b } a b := by
  induction a generalizing b with
  | nil => exact ⟨rfl, Nat.le_refl _, Nat.zero_le _⟩
  | cons x a ih =>
      cases b with
      | nil => exact ⟨rfl, Nat.zero_le _, Nat.le_refl _⟩
      | cons y b =>
          by_cases same : x = y
          · subst same
            obtain ⟨further, left_le, right_le⟩ := ih b
            simp only [List.drop_zero, Nat.zero_add] at further left_le right_le
            constructor <;> simp [commonPrefix, further, left_le, right_le]
          · constructor <;> simp [commonPrefix, same]

/-- A prefix that the ends of two lists share is a run of the lists. -/
theorem shared_of_commonPrefix {a b : List Bytes} {left right : Nat} (leftInside : left ≤ a.length)
    (rightInside : right ≤ b.length) :
    Run.Shared ⟨left, right, commonPrefix (a.drop left) (b.drop right)⟩ a b := by
  obtain ⟨same, left_le, right_le⟩ := commonPrefix_shared (a.drop left) (b.drop right)
  simp only [List.drop_zero, Nat.zero_add, List.length_drop] at same left_le right_le
  constructor
  · exact same
  · dsimp only
    omega
  · dsimp only
    omega

theorem behind_of_cons {line : Bytes} {lines later : List Bytes} {place : Nat}
    (behind : line :: later = lines.drop place) :
    place < lines.length ∧ later = lines.drop (place + 1) := by
  constructor
  · apply Nat.lt_of_not_le
    intro outside
    rw [List.drop_of_length_le outside] at behind
    cases behind
  · rw [← List.drop_drop, ← behind]
    rfl

theorem longerFrom_shared {a b later : List Bytes} {left right : Nat} {best : Run}
    (leftInside : left ≤ a.length) (shared : best.Shared a b) (behind : later = b.drop right) :
    (longerFrom (a.drop left) left right best later).Shared a b := by
  induction later generalizing right best with
  | nil => exact shared
  | cons y later ih =>
      obtain ⟨rightInside, next⟩ := behind_of_cons behind
      refine ih ?_ next
      split
      · rw [behind]
        exact shared_of_commonPrefix leftInside (Nat.le_of_lt rightInside)
      · exact shared

theorem longestFrom_shared {a b later : List Bytes} {left : Nat} {best : Run}
    (shared : best.Shared a b) (behind : later = a.drop left) :
    (longestFrom b left best later).Shared a b := by
  induction later generalizing left best with
  | nil => exact shared
  | cons x later ih =>
      obtain ⟨leftInside, next⟩ := behind_of_cons behind
      refine ih ?_ next
      rw [behind]
      exact longerFrom_shared (Nat.le_of_lt leftInside) shared rfl

theorem longestRun_shared (a b : List Bytes) : (longestRun a b).Shared a b :=
  longestFrom_shared ⟨rfl, Nat.zero_le _, Nat.zero_le _⟩ rfl

section Sides

variable (pieces others : List Piece)

@[simp] theorem before_append : before (pieces ++ others) = before pieces ++ before others :=
  List.flatMap_append

@[simp] theorem after_append : after (pieces ++ others) = after pieces ++ after others :=
  List.flatMap_append

@[simp] theorem before_kept (lines : List Bytes) :
    before (.kept lines :: pieces) = lines ++ before pieces :=
  List.flatMap_cons

@[simp] theorem after_kept (lines : List Bytes) :
    after (.kept lines :: pieces) = lines ++ after pieces :=
  List.flatMap_cons

@[simp] theorem before_changed (removed added : List Bytes) :
    before (.changed removed added :: pieces) = removed ++ before pieces :=
  List.flatMap_cons

@[simp] theorem after_changed (removed added : List Bytes) :
    after (.changed removed added :: pieces) = added ++ after pieces :=
  List.flatMap_cons

end Sides

/-- A piece that removes or adds a line, if it is a change. -/
def Piece.Filled : Piece → Prop
  | .kept _ => True
  | .changed removed added => removed ≠ [] ∨ added ≠ []

/-- The pieces lead from the one list to the other, and every change among them removes
or adds a line. -/
structure Leads (pieces : List Piece) (a b : List Bytes) : Prop where
  starts : before pieces = a
  ends : after pieces = b
  filled : ∀ piece ∈ pieces, piece.Filled

theorem change_leads (removed added : List Bytes) :
    Leads (change removed added) removed added := by
  unfold change
  split
  · next empty =>
      simp only [Bool.and_eq_true, List.isEmpty_iff] at empty
      obtain ⟨rfl, rfl⟩ := empty
      exact ⟨rfl, rfl, nofun⟩
  · next some =>
      refine ⟨by simp [before], by simp [after], ?_⟩
      intro piece member
      cases List.mem_singleton.mp member
      simp only [Bool.and_eq_true, List.isEmpty_iff, not_and] at some
      by_cases nothing : removed = []
      · exact .inr (some nothing)
      · exact .inl nothing

theorem split_leads (budget : Nat) (a b : List Bytes) : Leads (split budget a b) a b := by
  induction budget generalizing a b with
  | zero => exact change_leads a b
  | succ budget ih =>
      rw [split]
      split
      · exact change_leads a b
      · obtain ⟨same, -, -⟩ := longestRun_shared a b
        generalize longestRun a b = run at same
        obtain ⟨frontStarts, frontEnds, frontFilled⟩ := ih (a.take run.left) (b.take run.right)
        obtain ⟨backStarts, backEnds, backFilled⟩ :=
          ih (a.drop (run.left + run.size)) (b.drop (run.right + run.size))
        constructor
        · rw [before_append, before_kept, frontStarts, backStarts, ← List.drop_drop,
            List.take_append_drop, List.take_append_drop]
        · rw [after_append, after_kept, frontEnds, backEnds, same, ← List.drop_drop,
            List.take_append_drop, List.take_append_drop]
        · intro piece member
          rcases List.mem_append.mp member with front | back
          · exact frontFilled piece front
          rcases List.mem_cons.mp back with rfl | back
          · trivial
          · exact backFilled piece back

/-- Pieces in which kept stretches do not meet, and every change removes or adds a
line. -/
inductive Alternates : List Piece → Prop where
  | nil : Alternates []
  | changed {removed added : List Bytes} {pieces : List Piece}
      (filled : removed ≠ [] ∨ added ≠ []) (rest : Alternates pieces) :
      Alternates (.changed removed added :: pieces)
  | last (lines : List Bytes) : Alternates [.kept lines]
  | kept (lines : List Bytes) {removed added : List Bytes} {pieces : List Piece}
      (rest : Alternates (.changed removed added :: pieces)) :
      Alternates (.kept lines :: .changed removed added :: pieces)

theorem Alternates.filled {removed added : List Bytes} {pieces : List Piece}
    (alternates : Alternates (.changed removed added :: pieces)) : removed ≠ [] ∨ added ≠ [] := by
  cases alternates with
  | changed filled rest => exact filled

/-- How a stretch of kept lines is joined with what follows. -/
theorem joinKept_kept (lines : List Bytes) (pieces : List Piece) :
    (∃ more later, joinKept pieces = .kept more :: later ∧
        joinKept (.kept lines :: pieces) = .kept (lines ++ more) :: later) ∨
      (∀ more later, joinKept pieces ≠ .kept more :: later) ∧
        joinKept (.kept lines :: pieces) = .kept lines :: joinKept pieces := by
  rw [joinKept]
  split
  · next more later joined => exact .inl ⟨more, later, joined, rfl⟩
  · next apart => exact .inr ⟨apart, rfl⟩

theorem joinKept_leads {pieces : List Piece} {a b : List Bytes} (leads : Leads pieces a b) :
    before (joinKept pieces) = a ∧ after (joinKept pieces) = b ∧ Alternates (joinKept pieces) := by
  obtain ⟨rfl, rfl, filled⟩ := leads
  induction pieces with
  | nil => exact ⟨rfl, rfl, .nil⟩
  | cons piece pieces ih =>
      obtain ⟨first, later⟩ := List.forall_mem_cons.mp filled
      obtain ⟨starts, ends, alternates⟩ := ih later
      cases piece with
      | changed removed added =>
          rw [joinKept]
          · exact ⟨by simp [starts], by simp [ends], .changed first alternates⟩
          · simp
      | kept lines =>
          obtain ⟨more, rest, joined, together⟩ | ⟨apart, together⟩ := joinKept_kept lines pieces
          · rw [joined] at starts ends alternates
            rw [together, before_kept, after_kept, before_kept, after_kept, ← starts, ← ends]
            refine ⟨by simp, by simp, ?_⟩
            cases alternates with
            | last => exact .last _
            | kept _ rest => exact .kept _ rest
          · rw [together]
            refine ⟨by simp [starts], by simp [ends], ?_⟩
            cases shape : joinKept pieces with
            | nil => exact .last lines
            | cons next rest =>
                cases next with
                | kept more => exact absurd shape (apart more rest)
                | changed removed added =>
                    rw [shape] at alternates
                    exact .kept lines alternates

/-- The script leads from the one list to the other. -/
theorem before_script (a b : List Bytes) : before (script a b) = a :=
  (joinKept_leads (split_leads a.length a b)).1

theorem after_script (a b : List Bytes) : after (script a b) = b :=
  (joinKept_leads (split_leads a.length a b)).2.1

theorem script_alternates (a b : List Bytes) : Alternates (script a b) :=
  (joinKept_leads (split_leads a.length a b)).2.2

section Unchanged

variable {a : List Bytes} {best : Run}

theorem commonPrefix_self (a : List Bytes) : commonPrefix a a = a.length := by
  induction a with
  | nil => rfl
  | cons x a ih => rw [commonPrefix, if_pos rfl, ih, List.length_cons]

/-- No run is longer than the list it begins with. -/
theorem longerFrom_of_le (long : a.length ≤ best.size) (left right : Nat) (b : List Bytes) :
    longerFrom a left right best b = best := by
  induction b generalizing right with
  | nil => rfl
  | cons y b ih =>
      have inside := (commonPrefix_shared a (y :: b)).left_le
      have notLonger : ¬ best.size < commonPrefix a (y :: b) := by
        dsimp only at inside
        omega
      rw [longerFrom, if_neg notLonger, ih]

theorem longestFrom_of_le (long : a.length ≤ best.size) (b : List Bytes) (left : Nat) :
    longestFrom b left best a = best := by
  induction a generalizing left with
  | nil => rfl
  | cons x a ih =>
      rw [longestFrom, longerFrom_of_le long, ih (Nat.le_of_succ_le long)]

/-- A list shares all its lines with itself. -/
theorem longestRun_self (a : List Bytes) : longestRun a a = { size := a.length } := by
  cases a with
  | nil => rfl
  | cons x a =>
      have whole : longerFrom (x :: a) 0 0 {} (x :: a) = { size := (x :: a).length } := by
        rw [longerFrom, commonPrefix_self]
        exact longerFrom_of_le (Nat.le_refl _) 0 1 a
      rw [longestRun, longestFrom, whole]
      exact longestFrom_of_le (Nat.le_succ _) (x :: a) 1

theorem split_nil (budget : Nat) : split budget [] [] = [] := by
  cases budget <;> rfl

/-- The script from a list to itself has no change. -/
theorem script_self (a : List Bytes) : script a a = [] ∨ script a a = [.kept a] := by
  cases a with
  | nil => exact .inl rfl
  | cons x a =>
      right
      rw [script, List.length_cons, split, longestRun_self]
      simp [split_nil, joinKept]

end Unchanged

end Stencil.Diff
