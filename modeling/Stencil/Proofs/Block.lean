import Stencil.Block

/-!
# What a block takes

A block that was read stands at the beginning of the text: its opener, its
inside, its closer unless it is missing, and then the rest.
-/

namespace Stencil

/-- A nonempty beginning of a nonempty text, split off. -/
theorem cons_eq_append_drop {needle tail : Bytes} {b : UInt8} (nonempty : needle ≠ [])
    (begins : needle.isPrefixOf (b :: tail) = true) :
    b :: tail = needle ++ tail.drop (needle.length - 1) := by
  obtain ⟨rest, whole⟩ := List.isPrefixOf_iff_prefix.mp begins
  cases needle with
  | nil => exact (nonempty rfl).elim
  | cons first needle =>
      rw [List.cons_append, List.cons.injEq] at whole
      obtain ⟨rfl, rfl⟩ := whole
      simp

namespace Block

theorem body_append {opener closer text inner rest : Bytes} {depth : Nat}
    (openerNonempty : opener ≠ []) (closerNonempty : closer ≠ [])
    (found : body opener closer depth text = some (inner, rest)) :
    text = inner ++ (closer ++ rest) := by
  fun_induction body opener closer depth text generalizing inner rest with
  | case1 => cases found
  | case2 depth b tail opens ih =>
      obtain ⟨⟨inner', rest'⟩, later, pair⟩ := Option.map_eq_some_iff.mp found
      cases pair
      rw [cons_eq_append_drop openerNonempty opens.2, ih later, List.append_assoc]
  | case3 b tail _ closes =>
      cases found
      exact cons_eq_append_drop closerNonempty closes
  | case4 b tail _ closes depth ih =>
      obtain ⟨⟨inner', rest'⟩, later, pair⟩ := Option.map_eq_some_iff.mp found
      cases pair
      rw [cons_eq_append_drop closerNonempty closes, ih later, List.append_assoc]
  | case5 depth b tail _ _ ih =>
      obtain ⟨⟨inner', rest'⟩, later, pair⟩ := Option.map_eq_some_iff.mp found
      cases pair
      rw [ih later, List.cons_append]

/-- The closer of a block, when it was found. -/
def ending (closer : Bytes) (block : Block) : Bytes :=
  if block.closed then closer else []

theorem read?_eq_none_iff {opener closer text : Bytes} (openerNonempty : opener ≠ [])
    (closerNonempty : closer ≠ []) :
    read? opener closer text = none ↔ ¬ opener <+: text := by
  unfold read?
  split
  · next unusable =>
      simp only [Bool.or_eq_true, List.isEmpty_iff, openerNonempty, closerNonempty,
        Bool.not_eq_true', false_or, ← Bool.not_eq_true, List.isPrefixOf_iff_prefix] at unusable
      simp [unusable]
  · next usable =>
      simp only [Bool.or_eq_true, List.isEmpty_iff, openerNonempty, closerNonempty,
        Bool.not_eq_true', false_or, Bool.not_eq_false, List.isPrefixOf_iff_prefix] at usable
      split <;> simp [usable]

theorem read?_append {opener closer text : Bytes} {block : Block}
    (found : read? opener closer text = some block) :
    text = opener ++ (block.inner ++ (block.ending closer ++ block.rest)) := by
  unfold read? at found
  split at found
  · cases found
  next usable =>
    simp only [Bool.or_eq_true, List.isEmpty_iff, Bool.not_eq_true', not_or,
      Bool.not_eq_false, List.isPrefixOf_iff_prefix] at usable
    obtain ⟨⟨openerNonempty, closerNonempty⟩, rest, rfl⟩ := usable
    rw [List.drop_left] at found
    split at found
    · next inner rest later =>
        cases found
        rw [body_append openerNonempty closerNonempty later]
        rfl
    · cases found
      simp [ending]

theorem read?_suffix {opener closer text : Bytes} {block : Block}
    (found : read? opener closer text = some block) : block.rest <:+ text := by
  rw [read?_append found, ← List.append_assoc, ← List.append_assoc]
  exact List.suffix_append _ _

/-- A block that is not closed takes all of the text. -/
theorem read?_rest_of_open {opener closer text : Bytes} {block : Block}
    (found : read? opener closer text = some block) (unfinished : block.closed = false) :
    block.rest = [] := by
  unfold read? at found
  split at found
  · cases found
  · split at found
    · cases found
      cases unfinished
    · cases found
      rfl

end Block

end Stencil
