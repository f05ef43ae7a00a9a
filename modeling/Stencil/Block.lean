import Stencil.Text.Bytes

/-!
# Balanced blocks

A block begins with an opener and runs to the closer that balances it.
Openers inside it deepen it, unless opener and closer are the same text: then
the next occurrence closes.  A block whose closer is missing runs to the end
of the text.

`body` reads what follows an opener; `read?` reads a whole block.
-/

namespace Stencil

/-- A block at the beginning of a text. -/
structure Block where
  /-- The text between the delimiters. -/
  inner : Bytes
  /-- Whether the closer was found. -/
  closed : Bool
  /-- The text after the block. -/
  rest : Bytes
  deriving DecidableEq

namespace Block

/-- Reads up to the closer that balances the block, where `depth` openers
inside the block are still open.  The result is the text before that closer and
the text after it.  An opener wins over a closer that begins at the same
place. -/
def body (opener closer : Bytes) (depth : Nat) (text : Bytes) : Option (Bytes × Bytes) :=
  match text with
  | [] => none
  | b :: tail =>
      if opener ≠ closer ∧ opener.isPrefixOf (b :: tail) then
        (body opener closer (depth + 1) (tail.drop (opener.length - 1))).map
          fun (inner, rest) => (opener ++ inner, rest)
      else if closer.isPrefixOf (b :: tail) then
        match depth with
        | 0 => some ([], tail.drop (closer.length - 1))
        | depth + 1 =>
            (body opener closer depth (tail.drop (closer.length - 1))).map
              fun (inner, rest) => (closer ++ inner, rest)
      else
        (body opener closer depth tail).map fun (inner, rest) => (b :: inner, rest)
termination_by text.length
decreasing_by all_goals (simp only [List.length_drop, List.length_cons]; omega)

/-- The rest after a block's body is shorter than the text it was read from. -/
theorem body_length {opener closer text inner rest : Bytes} {depth : Nat}
    (found : body opener closer depth text = some (inner, rest)) :
    rest.length < text.length := by
  fun_induction body opener closer depth text generalizing inner rest with
  | case1 => cases found
  | case2 depth b tail _ ih =>
      obtain ⟨⟨inner', rest'⟩, later, pair⟩ := Option.map_eq_some_iff.mp found
      cases pair
      have shorter := ih later
      simp only [List.length_drop, List.length_cons] at shorter ⊢
      omega
  | case3 b tail =>
      cases found
      simp only [List.length_drop, List.length_cons]
      omega
  | case4 b tail _ _ depth ih =>
      obtain ⟨⟨inner', rest'⟩, later, pair⟩ := Option.map_eq_some_iff.mp found
      cases pair
      have shorter := ih later
      simp only [List.length_drop, List.length_cons] at shorter ⊢
      omega
  | case5 depth b tail _ _ ih =>
      obtain ⟨⟨inner', rest'⟩, later, pair⟩ := Option.map_eq_some_iff.mp found
      cases pair
      have shorter := ih later
      simp only [List.length_cons]
      omega

/-- Reads the block a text begins with.  There is none when the text does not
begin with the opener or a delimiter is empty. -/
def read? (opener closer text : Bytes) : Option Block :=
  if opener.isEmpty || closer.isEmpty || !opener.isPrefixOf text then
    none
  else
    match body opener closer 0 (text.drop opener.length) with
    | some (inner, rest) => some ⟨inner, true, rest⟩
    | none => some ⟨text.drop opener.length, false, []⟩

/-- A block takes at least its opener, so what follows it is shorter. -/
theorem read?_length {opener closer text : Bytes} {block : Block}
    (found : read? opener closer text = some block) :
    block.rest.length < text.length := by
  unfold read? at found
  split at found
  · cases found
  next usable =>
    simp only [Bool.or_eq_true, List.isEmpty_iff, Bool.not_eq_true', not_or,
      Bool.not_eq_false, List.isPrefixOf_iff_prefix] at usable
    have nonempty : 0 < opener.length := List.length_pos_iff.mpr usable.1.1
    have fits : opener.length ≤ text.length := usable.2.length_le
    split at found
    · next inner rest later =>
        cases found
        have shorter := body_length later
        simp at shorter ⊢
        omega
    · cases found
      simp
      omega

/-- Why a block could not be looked for: the offset is outside the text. -/
inductive OutOfRange where
  | negative (offset : Int)
  | beyond (offset length : Nat)
  deriving DecidableEq

/-- What is found at an offset of a text. -/
inductive Extraction where
  /-- No block begins there. -/
  | absent
  /-- A block begins there. -/
  | found (block : Block)

/-- Looks for a block at any offset.  Empty delimiters are noticed before the
offset is. -/
def extract (text : Bytes) (offset : Int) (opener closer : Bytes) :
    Except OutOfRange Extraction :=
  if opener.isEmpty || closer.isEmpty then
    .ok .absent
  else
    match offset with
    | .negSucc n => .error (.negative (.negSucc n))
    | .ofNat n =>
        if text.length < n then
          .error (.beyond n text.length)
        else
          match read? opener closer (text.drop n) with
          | none => .ok .absent
          | some block => .ok (.found block)

end Block

end Stencil
