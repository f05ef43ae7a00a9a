import Stencil.Cache.Basic
import Stencil.Proofs.FileCreation

/-!
# Changes at separate places

Values that are put under different keys can be put in either order, and so can nodes
of a tree at locations of which none leads through the other.  So what is recorded
about different files, and written to them, can be recorded and written in any order.
-/

namespace Stencil

namespace Keyed

variable {α β : Type}

theorem put_put (key : Bytes) (value other : α) (map : Keyed α) :
    put key value (put key other map) = put key value map := by
  induction map with
  | nil => simp [put]
  | cons entry map ih =>
      obtain ⟨name, kept⟩ := entry
      by_cases same : key = name
      · simp [put, same]
      · by_cases before : key < name
        · simp [put, same, before]
        · simp [put, same, before, ih]

theorem put_comm_of_lt {left right : Bytes} (less : left < right) (one other : α)
    (map : Keyed α) :
    put left one (put right other map) = put right other (put left one map) := by
  have differ : right ≠ left := by
    rintro rfl
    exact List.lt_irrefl _ less
  have notLess : ¬ right < left := List.lt_asymm less
  induction map with
  | nil => simp [put, less, differ, differ.symm, notLess]
  | cons entry map ih =>
      obtain ⟨name, kept⟩ := entry
      by_cases same : left = name
      · subst same
        simp [put, differ, notLess]
      by_cases before : left < name
      · by_cases found : right = name
        · subst found
          simp [put, less, differ, differ.symm, notLess]
        · by_cases between : right < name <;>
            simp [put, less, differ, differ.symm, notLess, same, before, found, between]
      · -- The larger key comes no earlier than the smaller one.
        have notFound : right ≠ name := by
          rintro rfl
          exact before less
        have notBetween : ¬ right < name := fun between => before (List.lt_trans less between)
        simp [put, same, before, notFound, notBetween, ih]

theorem put_comm {left right : Bytes} (differ : left ≠ right) (one other : α) (map : Keyed α) :
    put left one (put right other map) = put right other (put left one map) := by
  by_cases less : left < right
  · exact put_comm_of_lt less one other map
  · exact (put_comm_of_lt (Std.lt_of_le_of_ne less differ.symm) other one map).symm

theorem map_put (change : α → β) (key : Bytes) (value : α) (map : Keyed α) :
    (put key value map).map (fun entry => (entry.1, change entry.2)) =
      put key (change value) (map.map fun entry => (entry.1, change entry.2)) := by
  induction map with
  | nil => rfl
  | cons entry map ih =>
      obtain ⟨name, kept⟩ := entry
      by_cases same : key = name
      · simp [put, same]
      · by_cases before : key < name
        · simp [put, same, before]
        · simp [put, same, before, ih]

end Keyed

namespace Files

/-- Neither location leads through the other. -/
def Separate (left right : Location) : Prop :=
  ¬ left <+: right ∧ ¬ right <+: left

/-- Nothing is below a file. -/
theorem eq_of_prefix_of_file {tree node : Node} {left right : Location} {content : Bytes}
    (found : tree.get? left = some (.file content)) (below : tree.get? right = some node)
    (through : left <+: right) : left = right := by
  obtain ⟨rest, rfl⟩ := through
  rw [Node.get?_append, found, Option.bind_some] at below
  cases rest with
  | nil => rw [List.append_nil]
  | cons name rest => simp [Node.get?] at below

theorem separate_of_files {tree : Node} {left right : Location} {content text : Bytes}
    (found : tree.get? left = some (.file content)) (other : tree.get? right = some (.file text))
    (differ : left ≠ right) : Separate left right := by
  constructor
  · intro through
    exact differ (eq_of_prefix_of_file found other through)
  · intro through
    exact differ (eq_of_prefix_of_file other found through).symm

namespace Node

/-- What putting a node at a location below an entry of a folder makes of the entry. -/
def changed? (child : Option Node) (location : Location) (new : Node) : Option Node :=
  match location with
  | [] => some new
  | _ :: _ => child.map (·.put location new)

theorem put_folder (entries : List (Bytes × Node)) (name : Bytes) (location : Location)
    (new : Node) :
    (Node.folder entries).put (name :: location) new =
      .folder (((changed? (Keyed.get? entries name) location new).map
        fun child => Keyed.put name child entries).getD entries) := by
  cases location with
  | nil => rfl
  | cons next location =>
      rw [put, changed?]
      · cases Keyed.get? entries name <;> rfl
      · simp

theorem put_comm {left right : Location} (separate : Separate left right) (one other tree : Node) :
    (tree.put right other).put left one = (tree.put left one).put right other := by
  induction left generalizing right tree with
  | nil => exact absurd List.nil_prefix separate.1
  | cons name left ih =>
      cases right with
      | nil => exact absurd List.nil_prefix separate.2
      | cons next right =>
          cases tree with
          | file content => simp [put]
          | link target => simp [put]
          | folder entries =>
              by_cases same : name = next
              · subst same
                have below : Separate left right := by
                  constructor
                  · intro through
                    exact separate.1 (List.cons_prefix_cons.mpr ⟨rfl, through⟩)
                  · intro through
                    exact separate.2 (List.cons_prefix_cons.mpr ⟨rfl, through⟩)
                -- Below one entry both locations go on, so it stays what it is or is changed twice.
                obtain ⟨first, left, rfl⟩ : ∃ first rest, left = first :: rest := by
                  apply List.exists_cons_of_ne_nil
                  rintro rfl
                  exact below.1 List.nil_prefix
                obtain ⟨second, right, rfl⟩ : ∃ second rest, right = second :: rest := by
                  apply List.exists_cons_of_ne_nil
                  rintro rfl
                  exact below.2 List.nil_prefix
                cases inside : Keyed.get? entries name with
                | none => simp [put_folder, changed?, inside]
                | some child => simp [put_folder, changed?, inside, Keyed.put_put, ih below]
              · cases one' : changed? (Keyed.get? entries name) left one <;>
                  cases other' : changed? (Keyed.get? entries next) right other <;>
                  simp [put_folder, one', other', Keyed.get?_put_of_ne same,
                    Keyed.get?_put_of_ne (Ne.symm same), Keyed.put_comm same]

end Node

end Files

namespace Cache

/-- An entry without the time at which it was recorded. -/
def Entry.undated (entry : Entry) : Entry :=
  { entry with recordedAt := 0 }

/-- A cache without the times at which its entries were recorded. -/
def undated (cache : Cache) : Cache :=
  { cache with entries := cache.entries.map fun entry => (entry.1, entry.2.undated) }

theorem undated_record (cache : Cache) (now : Nat) (path content digest : Bytes) :
    (cache.record now path content digest).undated =
      cache.undated.record 0 path content digest := by
  have entries := Keyed.map_put Entry.undated path ⟨contentHash content, digest, now⟩ cache.entries
  rw [undated, record, entries]
  rfl

theorem record_comm {path other : Bytes} (differ : path ≠ other) (cache : Cache)
    (now later : Nat) (content text digest : Bytes) :
    (cache.record now other content digest).record later path text digest =
      (cache.record later path text digest).record now other content digest := by
  simp only [record]
  rw [Keyed.put_comm differ]

end Cache

end Stencil
