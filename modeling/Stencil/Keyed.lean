import Stencil.Text.Bytes

/-!
# Values by key

A finite map from texts to values, as a list in the byte order of its keys.
-/

namespace Stencil

/-- Values by key, sorted by key. -/
abbrev Keyed (α : Type) := List (Bytes × α)

namespace Keyed

variable {α : Type}

/-- The value of a key. -/
def get? (map : Keyed α) (key : Bytes) : Option α :=
  map.lookup key

/-- Gives a key a value, instead of the one it had. -/
def put (key : Bytes) (value : α) : Keyed α → Keyed α
  | [] => [(key, value)]
  | (other, kept) :: map =>
      if key = other then (key, value) :: map
      else if key < other then (key, value) :: (other, kept) :: map
      else (other, kept) :: put key value map

/-- Takes a key out. -/
def erase (map : Keyed α) (key : Bytes) : Keyed α :=
  map.filter fun (other, _) => other != key

/-- Every key has one value, and the keys are in order. -/
def Sorted (map : Keyed α) : Prop :=
  map.Pairwise fun left right => left.1 < right.1

/-- The new value is found under its key. -/
@[simp] theorem get?_put_self (key : Bytes) (value : α) (map : Keyed α) :
    (put key value map).get? key = some value := by
  induction map with
  | nil => simp [put, get?]
  | cons entry map induction =>
      obtain ⟨other, kept⟩ := entry
      by_cases same : key = other
      · subst same
        simp [put, get?]
      · by_cases before : key < other
        · simp [put, get?, same, before]
        · simpa [put, get?, List.lookup_cons, same, before, beq_eq_false_iff_ne.mpr same]
            using induction

/-- No other key is touched. -/
theorem get?_put_of_ne {key other : Bytes} (differ : other ≠ key) (value : α) (map : Keyed α) :
    (put key value map).get? other = map.get? other := by
  induction map with
  | nil => simp [put, get?, List.lookup_cons, beq_eq_false_iff_ne.mpr differ]
  | cons entry map induction =>
      obtain ⟨name, kept⟩ := entry
      by_cases same : key = name
      · subst same
        simp [put, get?, List.lookup_cons, beq_eq_false_iff_ne.mpr differ]
      · by_cases before : key < name
        · simp [put, get?, same, before, List.lookup_cons, beq_eq_false_iff_ne.mpr differ]
        · by_cases found : other = name
          · subst found
            simp [put, get?, same, before]
          · simpa [put, get?, same, before, List.lookup_cons, beq_eq_false_iff_ne.mpr found]
              using induction

/-- A key that was taken out has no value, and no other key is touched. -/
theorem get?_erase (map : Keyed α) (key other : Bytes) :
    (erase map key).get? other = if other = key then none else map.get? other := by
  induction map with
  | nil => simp [erase, get?]
  | cons entry map induction =>
      obtain ⟨name, kept⟩ := entry
      by_cases taken : name = key
      · subst taken
        by_cases same : other = name
        · simpa [erase, get?, same] using induction
        · simpa [erase, get?, same, List.lookup_cons, beq_eq_false_iff_ne.mpr same]
            using induction
      · by_cases same : other = name
        · subst same
          simp [erase, get?, taken]
        · simpa [erase, get?, taken, List.lookup_cons, beq_eq_false_iff_ne.mpr same]
            using induction

end Keyed

end Stencil
