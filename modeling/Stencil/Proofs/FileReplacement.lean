import Stencil.Files.Access

/-!
# Replacing the content of a file

When a file is written that was there before, every path leads where it led
before: the tree keeps its folders, links and files, and only a content differs.
So the new content is what the same path then reads.
-/

namespace Stencil.Files

/-- Nodes that a path cannot tell apart: both are missing, both are files, both
are folders, or both are links to the same target. -/
inductive Alike : Option Node → Option Node → Prop where
  | missing : Alike none none
  | file (left right : Bytes) : Alike (some (.file left)) (some (.file right))
  | link (target : Bytes) : Alike (some (.link target)) (some (.link target))
  | folder (left right : List (Bytes × Node)) :
      Alike (some (.folder left)) (some (.folder right))

theorem Alike.refl (node : Option Node) : Alike node node := by
  cases node with
  | none => exact .missing
  | some node =>
      cases node with
      | file content => exact .file content content
      | link target => exact .link target
      | folder entries => exact .folder entries entries

theorem Alike.trans {first second third : Option Node} (left : Alike first second)
    (right : Alike second third) : Alike first third := by
  cases left with
  | missing => exact right
  | file before between =>
      cases right with
      | file _ after => exact .file before after
  | link target => exact right
  | folder before between =>
      cases right with
      | folder _ after => exact .folder before after

/-- Trees through which every path leads alike. -/
def SameShape (left right : Node) : Prop :=
  ∀ location, Alike (left.get? location) (right.get? location)

theorem SameShape.refl (tree : Node) : SameShape tree tree :=
  fun _ => .refl _

theorem SameShape.trans {first second third : Node} (left : SameShape first second)
    (right : SameShape second third) : SameShape first third :=
  fun location => (left location).trans (right location)

section SameShape

variable {left right : Node}

theorem SameShape.advance_eq (same : SameShape left right) (folder : Location)
    (names : List Bytes) : advance left folder names = advance right folder names := by
  induction names generalizing folder with
  | nil => rfl
  | cons name rest ih =>
      have next := same (folder ++ [name])
      simp only [advance, ih]
      generalize left.get? (folder ++ [name]) = leftNode at next ⊢
      generalize right.get? (folder ++ [name]) = rightNode at next ⊢
      cases next <;> rfl

theorem SameShape.follow_eq (same : SameShape left right) (last : Bool) (links : Nat)
    (folder : Location) (names : List Bytes) :
    follow left last links folder names = follow right last links folder names := by
  induction links generalizing folder names with
  | zero => rw [follow, follow, same.advance_eq]
  | succ links ih =>
      rw [follow, follow, same.advance_eq]
      simp only [ih]

theorem SameShape.resolve_eq (same : SameShape left right) (last : Bool) (path : Bytes) :
    resolve left last path = resolve right last path := by
  rw [resolve, resolve, same.follow_eq]

end SameShape

namespace Node

theorem get?_cons_eq_some {tree node : Node} {name : Bytes} {location : Location}
    (found : tree.get? (name :: location) = some node) :
    ∃ entries child, tree = .folder entries ∧ Keyed.get? entries name = some child ∧
      child.get? location = some node := by
  cases tree with
  | file content => simp [get?] at found
  | link target => simp [get?] at found
  | folder entries =>
      rw [get?] at found
      split at found
      · next child inside => exact ⟨entries, child, rfl, inside, found⟩
      · cases found

theorem put_cons {entries : List (Bytes × Node)} {name : Bytes} {child : Node}
    (inside : Keyed.get? entries name = some child) (location : Location) (new : Node) :
    (Node.folder entries).put (name :: location) new =
      .folder (Keyed.put name (child.put location new) entries) := by
  cases location with
  | nil => simp [put]
  | cons next location => simp [put, inside]

theorem get?_put_self {tree old : Node} {location : Location}
    (found : tree.get? location = some old) (new : Node) :
    (tree.put location new).get? location = some new := by
  induction location generalizing tree with
  | nil => simp [put, get?]
  | cons name location ih =>
      obtain ⟨entries, child, rfl, inside, below⟩ := get?_cons_eq_some found
      simp [put_cons inside, get?, ih below]

/-- Only a content differs when a file is put where a file was. -/
theorem sameShape_put {tree : Node} {location : Location} {old : Bytes}
    (found : tree.get? location = some (.file old)) (new : Bytes) :
    SameShape (tree.put location (.file new)) tree := by
  induction location generalizing tree with
  | nil =>
      simp only [get?, Option.some.injEq] at found
      subst found
      intro place
      cases place with
      | nil => exact .file new old
      | cons name place => exact .missing
  | cons name location ih =>
      obtain ⟨entries, child, rfl, inside, below⟩ := get?_cons_eq_some found
      rw [put_cons inside]
      intro place
      cases place with
      | nil => exact .folder _ _
      | cons other place =>
          by_cases same : other = name
          · subst same
            simpa [get?, inside] using ih below place
          · simp only [get?, Keyed.get?_put_of_ne same]
            exact .refl _

/-- No other file is touched when a file is put where a file was. -/
theorem get?_put_eq_file_iff {tree : Node} {location place : Location} {old : Bytes}
    (found : tree.get? location = some (.file old)) (differ : place ≠ location)
    (new content : Bytes) :
    (tree.put location (.file new)).get? place = some (.file content) ↔
      tree.get? place = some (.file content) := by
  induction location generalizing tree place with
  | nil =>
      simp only [get?, Option.some.injEq] at found
      subst found
      cases place with
      | nil => exact absurd rfl differ
      | cons name place => simp [put, get?]
  | cons name location ih =>
      obtain ⟨entries, child, rfl, inside, below⟩ := get?_cons_eq_some found
      rw [put_cons inside]
      cases place with
      | nil => simp [get?]
      | cons other place =>
          by_cases same : other = name
          · subst same
            have apart : place ≠ location := fun same => differ (by rw [same])
            simpa [get?, inside] using ih below apart
          · simp only [get?, Keyed.get?_put_of_ne same]

end Node

/-- Whether something came out can be decided even if its failures cannot be told
apart. -/
instance decidableEqOk {ε α : Type} [DecidableEq α] (outcome : Except ε α) (value : α) :
    Decidable (outcome = .ok value) :=
  decidable_of_iff (outcome.toOption = some value) <| by
    cases outcome <;> simp [Except.toOption]

theorem find_of_taken {tree : Node} {last : Bool} {path : Bytes} {location : Location}
    (leads : resolve tree last path = .ok (.taken location)) :
    find tree last path = (tree.get? location).elim (.error .notExist) .ok := by
  cases found : tree.get? location <;> simp [find, leads, found, bind, Except.bind]

theorem find_eq_ok_iff {tree node : Node} {last : Bool} {path : Bytes} :
    find tree last path = .ok node ↔
      ∃ location, resolve tree last path = .ok (.taken location) ∧
        tree.get? location = some node := by
  cases resolved : resolve tree last path with
  | error refusal => simp [find, resolved, bind, Except.bind]
  | ok spot =>
      cases spot with
      | free location => simp [find, resolved, bind, Except.bind]
      | taken location =>
          cases found : tree.get? location <;>
            simp [find, resolved, found, bind, Except.bind]

theorem read_eq_ok_iff {tree : Node} {path content : Bytes} :
    read tree path = .ok content ↔ find tree true path = .ok (.file content) := by
  unfold read
  split <;> simp_all

theorem find_of_inspect {tree node : Node} {path : Bytes} (there : inspect tree path = .ok node) :
    find tree false path = .ok node := by
  unfold inspect at there
  cases found : find tree false path with
  | error refusal =>
      rw [found] at there
      cases there
  | ok other =>
      rw [found] at there
      cases there
      rfl

theorem find_of_list {tree : Node} {path : Bytes} {entries : List (Bytes × Node)}
    (listed : list tree path = .ok entries) : find tree true path = .ok (.folder entries) := by
  unfold list at listed
  split at listed
  · cases listed
  · next found =>
      cases listed
      exact found
  · cases listed

theorem inspect_ne_nil {tree node : Node} {path : Bytes} (found : inspect tree path = .ok node) :
    path ≠ [] := by
  rintro rfl
  cases found

/-- A file that can be read can be looked at. -/
theorem status_of_read {tree : Node} {path content : Bytes}
    (readable : read tree path = .ok content) :
    status tree path = .ok (.file content) := by
  rw [status, read_eq_ok_iff.mp readable, naming]

/-- A path finds the same in both trees, but for what is in a folder. -/
inductive FindsAlike (left right : Node) (path : Bytes) : Prop where
  | same (equal : find left true path = find right true path)
  | folder {before after : List (Bytes × Node)}
      (leftFound : find left true path = .ok (.folder before))
      (rightFound : find right true path = .ok (.folder after))

theorem FindsAlike.refl (tree : Node) (path : Bytes) : FindsAlike tree tree path :=
  .same rfl

theorem FindsAlike.trans {first second third : Node} {path : Bytes}
    (left : FindsAlike first second path) (right : FindsAlike second third path) :
    FindsAlike first third path := by
  cases left with
  | same equal =>
      cases right with
      | same further => exact .same (equal.trans further)
      | folder leftFound rightFound => exact .folder (equal.trans leftFound) rightFound
  | folder leftFound rightFound =>
      cases right with
      | same further => exact .folder leftFound (further.symm.trans rightFound)
      | folder _ found => exact .folder leftFound found

theorem FindsAlike.read_eq {left right : Node} {path : Bytes}
    (alike : FindsAlike left right path) : read left path = read right path := by
  unfold read
  cases alike with
  | same equal => rw [equal]
  | folder leftFound rightFound => rw [leftFound, rightFound]

/-- In trees of the same shape only the contents of files can be found to differ. -/
theorem SameShape.findsAlike {left right : Node} (shape : SameShape left right) {path : Bytes}
    (files : ∀ place, resolve right true path = .ok (.taken place) → ∀ content,
      left.get? place = some (.file content) ↔ right.get? place = some (.file content)) :
    FindsAlike left right path := by
  cases resolved : resolve right true path with
  | error refusal =>
      apply FindsAlike.same
      rw [find, find, shape.resolve_eq, resolved]
      rfl
  | ok spot =>
      cases spot with
      | free place =>
          apply FindsAlike.same
          rw [find, find, shape.resolve_eq, resolved]
          rfl
      | taken place =>
          have alike := shape place
          have same := files place resolved
          have after := find_of_taken resolved
          have before := find_of_taken ((shape.resolve_eq true path).trans resolved)
          generalize left.get? place = leftNode at alike same before
          generalize right.get? place = rightNode at alike same after
          cases alike with
          | missing => exact .same (before.trans after.symm)
          | file one other =>
              cases (same one).mp rfl
              exact .same (before.trans after.symm)
          | link target => exact .same (before.trans after.symm)
          | folder one other => exact .folder before after

/-- Both paths lead to one place. -/
def SameFile (tree : Node) (left right : Bytes) : Prop :=
  ∃ location, resolve tree true left = .ok (.taken location) ∧
    resolve tree true right = .ok (.taken location)

instance (tree : Node) (left right : Bytes) : Decidable (SameFile tree left right) :=
  decidable_of_iff
    ((match resolve tree true left, resolve tree true right with
      | .ok (.taken place), .ok (.taken other) => decide (other = place)
      | _, _ => false) = true) <| by
    unfold SameFile
    split
    · next place other leftLeads rightLeads => simp [leftLeads, rightLeads]
    · next apart =>
        constructor
        · intro same
          cases same
        · rintro ⟨location, leftLeads, rightLeads⟩
          exact absurd rightLeads (apart location location leftLeads)

theorem SameFile.symm {tree : Node} {left right : Bytes} (same : SameFile tree left right) :
    SameFile tree right left := by
  obtain ⟨location, leftLeads, rightLeads⟩ := same
  exact ⟨location, rightLeads, leftLeads⟩

theorem sameFile_self {tree : Node} {path content : Bytes}
    (readable : read tree path = .ok content) : SameFile tree path path := by
  obtain ⟨location, leads, -⟩ := find_eq_ok_iff.mp (read_eq_ok_iff.mp readable)
  exact ⟨location, leads, leads⟩

theorem SameShape.sameFile_iff {left right : Node} (same : SameShape left right)
    (path other : Bytes) : SameFile left path other ↔ SameFile right path other := by
  simp only [SameFile, same.resolve_eq]

section Put

variable {tree : Node} {path other old kept : Bytes} {location : Location}

theorem read_put (leads : resolve tree true path = .ok (.taken location))
    (found : tree.get? location = some (.file old)) (content : Bytes) :
    read (tree.put location (.file content)) path = .ok content := by
  rw [read_eq_ok_iff, find_eq_ok_iff, (Node.sameShape_put found content).resolve_eq]
  exact ⟨location, leads, Node.get?_put_self found _⟩

/-- A path that leads elsewhere finds what it found before. -/
theorem findsAlike_put (leads : resolve tree true path = .ok (.taken location))
    (found : tree.get? location = some (.file old)) (apart : ¬ SameFile tree path other)
    (content : Bytes) : FindsAlike (tree.put location (.file content)) tree other := by
  apply (Node.sameShape_put found content).findsAlike
  intro place leadsThere
  have differ : place ≠ location := by
    rintro rfl
    exact apart ⟨place, leads, leadsThere⟩
  exact Node.get?_put_eq_file_iff found differ content

theorem read_put_of_apart (leads : resolve tree true path = .ok (.taken location))
    (found : tree.get? location = some (.file old)) (apart : ¬ SameFile tree path other)
    (unchanged : read tree other = .ok kept) (content : Bytes) :
    read (tree.put location (.file content)) other = .ok kept := by
  rw [(findsAlike_put leads found apart content).read_eq, unchanged]

end Put

section Write

variable {tree after : Node} {path old content : Bytes}

theorem write_over (readable : read tree path = .ok old)
    (written : write path content tree = .ok after) :
    ∃ location, resolve tree true path = .ok (.taken location) ∧
      tree.get? location = some (.file old) ∧ after = tree.put location (.file content) := by
  obtain ⟨location, leads, found⟩ := find_eq_ok_iff.mp (read_eq_ok_iff.mp readable)
  simp only [write, leads, found, Except.ok.injEq] at written
  exact ⟨location, leads, found, written.symm⟩

/-- What is written over a file is what is read from it then. -/
theorem read_write (readable : read tree path = .ok old)
    (written : write path content tree = .ok after) : read after path = .ok content := by
  obtain ⟨location, leads, found, rfl⟩ := write_over readable written
  exact read_put leads found content

theorem sameShape_write (readable : read tree path = .ok old)
    (written : write path content tree = .ok after) : SameShape after tree := by
  obtain ⟨location, -, found, rfl⟩ := write_over readable written
  exact Node.sameShape_put found content

theorem read_write_of_apart (readable : read tree path = .ok old)
    (written : write path content tree = .ok after) {other kept : Bytes}
    (apart : ¬ SameFile tree path other) (unchanged : read tree other = .ok kept) :
    read after other = .ok kept := by
  obtain ⟨location, leads, found, rfl⟩ := write_over readable written
  exact read_put_of_apart leads found apart unchanged content

end Write

/-- Nothing changes but what the file of a path holds. -/
def Overwrites (path : Bytes) (before after : Node) : Prop :=
  after = before ∨ ∃ old left, read before path = .ok old ∧ write path left before = .ok after

section Overwrites

variable {before after : Node} {path old : Bytes}

theorem Overwrites.sameShape (overwrites : Overwrites path before after) :
    SameShape after before := by
  rcases overwrites with rfl | ⟨old, left, readable, written⟩
  · exact .refl _
  · exact sameShape_write readable written

theorem Overwrites.read_of_apart (overwrites : Overwrites path before after) {other kept : Bytes}
    (apart : ¬ SameFile before path other) (unchanged : read before other = .ok kept) :
    read after other = .ok kept := by
  rcases overwrites with rfl | ⟨old, left, readable, written⟩
  · exact unchanged
  · exact read_write_of_apart readable written apart unchanged

/-- A write that fails leaves the file alone or a part of the text in it; one that does not
fail meets no fault. -/
theorem attempt_cases (fault : Option Fault) (content : Bytes)
    (readable : read before path = .ok old) :
    (∃ after failure, attempt fault path content before = (after, some failure) ∧
        Overwrites path before after) ∨
      ∃ after, attempt fault path content before = (after, none) ∧ fault = none ∧
        write path content before = .ok after := by
  unfold attempt
  cases fault with
  | none =>
      dsimp only
      cases written : write path content before with
      | error failure => exact .inl ⟨before, failure, rfl, .inl rfl⟩
      | ok after => exact .inr ⟨after, rfl, rfl, rfl⟩
  | some fault =>
      dsimp only
      cases fault.left? content with
      | none => exact .inl ⟨before, _, rfl, .inl rfl⟩
      | some left =>
          dsimp only
          cases written : write path left before with
          | error failure => exact .inl ⟨before, failure, rfl, .inl rfl⟩
          | ok after => exact .inl ⟨after, _, rfl, .inr ⟨old, left, readable, written⟩⟩

end Overwrites

end Stencil.Files
