import Stencil.Proofs.CleanPath
import Stencil.Proofs.FileCreation

/-!
# The way to a folder

Where steps lead on, there is a folder.  So a path that leads to a folder leads
through folders wherever it has a slash.  Making these folders leaves the tree as it
is when they are there, and otherwise it ends with a folder that the path leads to.

How many links are left makes no difference unless there are too many of them.
-/

namespace Stencil.Files

/-- The halt of further steps behind a halt. -/
def Halt.goOn (tree : Node) (rest : List Bytes) : Halt → Halt
  | .arrived (.taken location) =>
      if IsFolder tree location then advance tree location rest else .refused .notDirectory
  | .arrived (.free _) => .refused .notExist
  | .refused refusal => .refused refusal
  | .link folder name target before => .link folder name target (before ++ rest)

section Steps

variable {tree : Node}

theorem advance_append {folder : Location} (inside : IsFolder tree folder) (front : List Bytes)
    {rest : List Bytes} (filled : rest ≠ []) :
    advance tree folder (front ++ rest) = (advance tree folder front).goOn tree rest := by
  induction front generalizing folder with
  | nil => rw [List.nil_append, advance, Halt.goOn, if_pos inside]
  | cons name front ih =>
      have goesOn : (front ++ rest).isEmpty = false := by simp [filled]
      rw [List.cons_append, advance, advance]
      split
      · exact ih inside
      split
      · exact ih inside.dropLast
      cases found : tree.get? (folder ++ [name]) with
      | none =>
          simp only [goesOn, Bool.false_eq_true, if_false]
          split <;> rfl
      | some node =>
          cases node with
          | folder entries => exact ih ⟨entries, found⟩
          | link target => rfl
          | file content =>
              have noFolder : ¬ IsFolder tree (folder ++ [name]) := by simp [IsFolder, found]
              simp only [goesOn, Bool.false_eq_true, if_false]
              split
              · rw [Halt.goOn, if_neg noFolder]
              · rfl

/-- Further steps are refused, or wait behind a link, or are taken from a folder. -/
theorem Halt.goOn_cases (tree : Node) (halt : Halt) (rest : List Bytes) :
    (∃ refusal, halt.goOn tree rest = .refused refusal) ∨
      (∃ folder name target before, halt = .link folder name target before ∧
        halt.goOn tree rest = .link folder name target (before ++ rest)) ∨
      ∃ location, IsFolder tree location ∧ halt = .arrived (.taken location) ∧
        halt.goOn tree rest = advance tree location rest := by
  cases halt with
  | refused refusal => exact .inl ⟨refusal, rfl⟩
  | link folder name target before => exact .inr (.inl ⟨folder, name, target, before, rfl, rfl⟩)
  | arrived spot =>
      cases spot with
      | free location => exact .inl ⟨.notExist, rfl⟩
      | taken location =>
          by_cases inside : IsFolder tree location
          · exact .inr (.inr ⟨location, inside, rfl, if_pos inside⟩)
          · exact .inl ⟨.notDirectory, if_neg inside⟩

/-- Steps lead to a folder before they lead on. -/
theorem Follows.before {last : Bool} {links : Nat} {folder : Location} {front rest : List Bytes}
    {spot : Spot} (follows : Follows tree last links folder (front ++ rest) spot)
    (inside : IsFolder tree folder) (filled : rest ≠ []) :
    ∃ location, IsFolder tree location ∧
      Follows tree true links folder front (.taken location) := by
  generalize spelled : front ++ rest = names at follows
  induction follows generalizing front with
  | @arrives links folder names spot halt =>
      rw [← spelled, advance_append inside front filled] at halt
      obtain ⟨refusal, refused⟩ | ⟨parent, name, target, before, -, linked⟩ |
        ⟨location, isFolder, arrived, -⟩ := Halt.goOn_cases tree (advance tree folder front) rest
      · cases refused.symm.trans halt
      · cases linked.symm.trans halt
      · exact ⟨location, isFolder, .arrives arrived⟩
  | @stops links folder parent names others name target halt ends =>
      rw [← spelled, advance_append inside front filled] at halt
      obtain ⟨refusal, refused⟩ | ⟨folder', name', target', before, -, linked⟩ |
        ⟨location, isFolder, arrived, -⟩ := Halt.goOn_cases tree (advance tree folder front) rest
      · cases refused.symm.trans halt
      · -- A link that further steps follow is not at the end.
        cases linked.symm.trans halt
        simp [filled] at ends
      · exact ⟨location, isFolder, .arrives arrived⟩
  | @through links folder parent names others name target spot halt goesOn relative further ih =>
      have sound := advance_sound inside names
      rw [halt] at sound
      rw [← spelled, advance_append inside front filled] at halt
      obtain ⟨refusal, refused⟩ | ⟨folder', name', target', before, atLink, linked⟩ |
        ⟨location, isFolder, arrived, -⟩ := Halt.goOn_cases tree (advance tree folder front) rest
      · cases refused.symm.trans halt
      · cases linked.symm.trans halt
        obtain ⟨location, isFolder, leads⟩ := ih sound.1 (List.append_assoc _ _ _)
        exact ⟨location, isFolder, .through atLink (Bool.and_false _) relative leads⟩
      · exact ⟨location, isFolder, .arrives arrived⟩

/-- Further steps are taken from the folder that steps lead to. -/
theorem Follows.goOn {links : Nat} {folder location : Location} {names rest : List Bytes}
    {spot : Spot} (follows : Follows tree true links folder names (.taken location))
    (inside : IsFolder tree folder) (isFolder : IsFolder tree location) (filled : rest ≠ [])
    (further : advance tree location rest = .arrived spot) :
    Follows tree true links folder (names ++ rest) spot := by
  generalize spelled : Spot.taken location = reached at follows
  induction follows with
  | @arrives links folder names reached halt =>
      subst spelled
      apply Follows.arrives
      rw [advance_append inside names filled, halt, Halt.goOn, if_pos isFolder, further]
  | @stops links folder parent names others name target halt ends =>
      rw [Bool.not_true, Bool.and_false] at ends
      cases ends
  | @through links folder parent names others name target reached halt goesOn relative later ih =>
      have sound := advance_sound inside names
      rw [halt] at sound
      have behind : advance tree folder (names ++ rest) =
          .link parent name target (others ++ rest) := by
        rw [advance_append inside names filled, halt, Halt.goOn]
      apply Follows.through behind (Bool.and_false _) relative
      rw [← List.append_assoc]
      exact ih sound.1 spelled

/-- The folder that steps lead to is the folder itself. -/
theorem Follows.here {links : Nat} {folder location : Location} {names : List Bytes}
    (follows : Follows tree true links folder names (.taken location))
    (inside : IsFolder tree folder) (isFolder : IsFolder tree location) :
    Follows tree true links folder (names ++ [Path.here]) (.taken location) :=
  follows.goOn inside isFolder (List.cons_ne_nil _ _) rfl

/-- With more links to go the same happens, unless there were too few. -/
theorem follow_of_le {last : Bool} {fewer more : Nat} (le : fewer ≤ more) {folder : Location}
    {names : List Bytes} (enough : follow tree last fewer folder names ≠ .error .tooManyLinks) :
    follow tree last more folder names = follow tree last fewer folder names := by
  induction fewer generalizing more folder names with
  | zero =>
      rw [follow] at enough
      rw [follow, follow]
      cases halt : advance tree folder names with
      | arrived spot => rfl
      | refused refusal => rfl
      | link parent name target rest =>
          rw [halt] at enough
          dsimp only at enough ⊢
          split
          · rfl
          · next goesOn => exact absurd (if_neg goesOn) enough
  | succ fewer ih =>
      obtain ⟨more, rfl⟩ : ∃ less, more = less + 1 :=
        Nat.exists_eq_add_one.mpr (Nat.lt_of_lt_of_le (Nat.succ_pos _) le)
      rw [follow] at enough
      rw [follow, follow]
      cases halt : advance tree folder names with
      | arrived spot => rfl
      | refused refusal => rfl
      | link parent name target rest =>
          rw [halt] at enough
          dsimp only at enough ⊢
          split
          · rfl
          · next goesOn =>
              rw [if_neg goesOn] at enough
              split
              · rfl
              · next relative =>
                  rw [if_neg relative] at enough
                  exact ih (Nat.le_of_succ_le_succ le) enough

end Steps

end Stencil.Files

namespace Stencil.Path

theorem names_ne_nil {b : UInt8} (noSlash : b ≠ byte '/') (path : Bytes) :
    names (b :: path) ≠ [] := by
  obtain ⟨part, parts, split⟩ := Bytes.splitOn_eq_cons (byte '/') path
  rw [names, Bytes.splitOn, split]
  simp [noSlash]

/-- What follows a parent of a path is a slash and at least one name. -/
theorem parentsFrom_sound {done text parent : Bytes} (member : parent ∈ parentsFrom done text) :
    ∃ front rest, parent = done ++ front ∧ text = front ++ byte '/' :: rest ∧ names rest ≠ [] := by
  fun_induction parentsFrom done text with
  | case1 => cases member
  | case2 => cases member
  | case3 done b c text others slash ih =>
      obtain ⟨rfl, noSlash⟩ := slash
      rcases List.mem_cons.mp member with rfl | later
      · exact ⟨[], c :: text, by simp, rfl, names_ne_nil noSlash text⟩
      · obtain ⟨front, rest, rfl, spelled, filled⟩ := ih later
        exact ⟨byte '/' :: front, rest, by simp, by rw [spelled]; rfl, filled⟩
  | case4 done b c text others noSlash ih =>
      obtain ⟨front, rest, rfl, spelled, filled⟩ := ih member
      exact ⟨b :: front, rest, by simp, by rw [spelled]; rfl, filled⟩

theorem parents_sound {path parent : Bytes} (member : parent ∈ parents path) :
    parent ≠ [] ∧ ∃ rest, path = parent ++ byte '/' :: rest ∧ names rest ≠ [] := by
  obtain ⟨among, filled⟩ := List.mem_filter.mp member
  obtain ⟨front, rest, spelled, split, named⟩ := parentsFrom_sound among
  rw [List.nil_append] at spelled
  subst spelled
  exact ⟨by simpa using filled, rest, split, named⟩

end Stencil.Path

namespace Stencil.Files

theorem bare_append (path : Bytes) :
    ∃ slashes, (∀ b ∈ slashes, b = byte '/') ∧ path = bare path ++ slashes := by
  refine ⟨(path.reverse.takeWhile (· == byte '/')).reverse, ?_, ?_⟩
  · intro b member
    have slash := List.all_eq_true.mp List.all_takeWhile b (List.mem_reverse.mp member)
    simpa using slash
  · rw [bare, ← List.reverse_append, List.takeWhile_append_dropWhile, List.reverse_reverse]

theorem names_slashes {slashes : Bytes} (all : ∀ b ∈ slashes, b = byte '/') :
    Path.names slashes = [] := by
  induction slashes with
  | nil => rfl
  | cons b slashes ih =>
      obtain ⟨first, later⟩ := List.forall_mem_cons.mp all
      have cut := Path.names_append [] slashes
      rw [List.nil_append] at cut
      rw [first, cut, ih later]
      rfl

/-- The slashes at the end of a path add no name. -/
theorem steps_bare (path : Bytes) : steps (bare path) = Path.names path := by
  have noSlash : (bare path).getLast? ≠ some (byte '/') := by
    rw [bare, List.getLast?_reverse]
    intro slash
    have kept := List.head?_dropWhile_not (· == byte '/') path.reverse
    rw [slash] at kept
    simp at kept
  rw [steps, if_neg noSlash, List.append_nil]
  obtain ⟨slashes, all, spelled⟩ := bare_append path
  cases slashes with
  | nil =>
      rw [List.append_nil] at spelled
      rw [← spelled]
  | cons b slashes =>
      obtain ⟨rfl, later⟩ := List.forall_mem_cons.mp all
      have cut := Path.names_append (bare path) slashes
      rw [names_slashes later, List.append_nil] at cut
      rw [← cut, ← spelled]

/-- A path that leads to a folder. -/
def LeadsToFolder (tree : Node) (path : Bytes) : Prop :=
  ∃ entries, find tree true path = .ok (.folder entries)

section Folders

variable {tree : Node} {path : Bytes}

theorem leadsToFolder_iff_resolve :
    LeadsToFolder tree path ↔
      ∃ location, IsFolder tree location ∧ resolve tree true path = .ok (.taken location) := by
  constructor
  · rintro ⟨entries, found⟩
    obtain ⟨location, leads, inside⟩ := find_eq_ok_iff.mp found
    exact ⟨location, ⟨entries, inside⟩, leads⟩
  · rintro ⟨location, ⟨entries, inside⟩, leads⟩
    exact ⟨entries, find_eq_ok_iff.mpr ⟨location, leads, inside⟩⟩

theorem LeadsToFolder.top (leads : LeadsToFolder tree path) : IsFolder tree [] := by
  obtain ⟨location, ⟨entries, inside⟩, -⟩ := leadsToFolder_iff_resolve.mp leads
  cases location with
  | nil => exact ⟨entries, inside⟩
  | cons name location =>
      obtain ⟨others, -, rfl, -⟩ := Node.get?_cons_eq_some inside
      exact ⟨others, rfl⟩

theorem LeadsToFolder.grow {before after : Node} {path : Bytes}
    (leads : LeadsToFolder before path) (grows : Grows before after) :
    LeadsToFolder after path := by
  obtain ⟨location, isFolder, arrives⟩ := leadsToFolder_iff_resolve.mp leads
  apply leadsToFolder_iff_resolve.mpr
  exact ⟨location, isFolder.grow grows, grows.resolve_taken arrives⟩

theorem LeadsToFolder.of_sameShape {before after : Node} {path : Bytes}
    (leads : LeadsToFolder before path) (same : SameShape after before) :
    LeadsToFolder after path := by
  obtain ⟨location, ⟨entries, inside⟩, arrives⟩ := leadsToFolder_iff_resolve.mp leads
  apply leadsToFolder_iff_resolve.mpr
  refine ⟨location, ?_, (same.resolve_eq true path).trans arrives⟩
  have alike := same location
  rw [inside] at alike
  generalize found : after.get? location = node at alike
  cases alike with
  | folder left right => exact ⟨left, found⟩

/-- A slash at the end of a path makes no difference for a folder. -/
theorem leadsToFolder_iff (top : IsFolder tree []) :
    LeadsToFolder tree path ↔
      (path.isEmpty || Path.isAbsolute path) = false ∧ ∃ location, IsFolder tree location ∧
        Follows tree true maxLinks [] (Path.names path) (.taken location) := by
  rw [leadsToFolder_iff_resolve]
  constructor
  · rintro ⟨location, isFolder, leads⟩
    obtain ⟨relative, follows⟩ := resolve_eq_ok_iff.mp leads
    refine ⟨relative, ?_⟩
    rw [steps] at follows
    split at follows
    · exact follows.before top (List.cons_ne_nil _ _)
    · rw [List.append_nil] at follows
      exact ⟨location, isFolder, follows⟩
  · rintro ⟨relative, location, isFolder, follows⟩
    refine ⟨location, isFolder, resolve_eq_ok_iff.mpr ⟨relative, ?_⟩⟩
    rw [steps]
    split
    · exact follows.here top isFolder
    · rw [List.append_nil]
      exact follows

theorem LeadsToFolder.parent (leads : LeadsToFolder tree path) {parent : Bytes}
    (member : parent ∈ Path.parents path) : LeadsToFolder tree parent := by
  obtain ⟨filled, rest, rfl, named⟩ := Path.parents_sound member
  have top := leads.top
  obtain ⟨relative, location, -, follows⟩ := (leadsToFolder_iff top).mp leads
  rw [Path.names_append] at follows
  apply (leadsToFolder_iff top).mpr
  refine ⟨?_, follows.before top named⟩
  rw [Path.isAbsolute_append filled] at relative
  simpa [filled] using relative

theorem LeadsToFolder.ensureFolder_eq (leads : LeadsToFolder tree path) :
    ensureFolder path tree = .ok tree := by
  obtain ⟨entries, found⟩ := leads
  rw [ensureFolder, found]

/-- Where there is a folder, nothing is made. -/
theorem LeadsToFolder.makeFolders_eq (leads : LeadsToFolder tree path) :
    makeFolders path tree = .ok tree := by
  have there : ∀ folder ∈ Path.parents path ++ [path], LeadsToFolder tree folder := by
    intro folder member
    rcases List.mem_append.mp member with above | itself
    · exact leads.parent above
    · rw [List.mem_singleton.mp itself]
      exact leads
  rw [makeFolders]
  generalize Path.parents path ++ [path] = folders at there
  induction folders with
  | nil => rfl
  | cons folder folders ih =>
      obtain ⟨first, later⟩ := List.forall_mem_cons.mp there
      rw [List.foldlM_cons, first.ensureFolder_eq]
      exact ih later

theorem relative_of_bare (relative : ((bare path).isEmpty || Path.isAbsolute (bare path)) = false) :
    (path.isEmpty || Path.isAbsolute path) = false := by
  obtain ⟨slashes, -, spelled⟩ := bare_append path
  have filled : bare path ≠ [] := by
    intro empty
    simp [empty] at relative
  rw [spelled, Path.isAbsolute_append filled]
  simpa [filled] using relative

theorem leadsToFolder_makeFolder {after : Node} (top : IsFolder tree [])
    (made : makeFolder path tree = .ok after) : LeadsToFolder after path := by
  unfold makeFolder at made
  split at made
  · cases made
  · next location free =>
      cases made
      have grows := grows_put_free top free (.folder [])
      obtain ⟨-, parent, name, rfl, inside⟩ := resolve_sound top free
      obtain ⟨relative, follows⟩ := resolve_eq_ok_iff.mp free
      have there : (tree.put (parent ++ [name]) (.folder [])).get? (parent ++ [name]) =
          some (.folder []) := get?_put_child inside _
      rw [steps_bare] at follows
      exact (leadsToFolder_iff (top.grow grows)).mpr ⟨relative_of_bare relative, _, ⟨[], there⟩,
        grows.follows_free there (fun _ => Node.noConfusion) follows⟩
  · next location taken =>
      split at made
      · next entries found =>
          cases made
          obtain ⟨relative, follows⟩ := resolve_eq_ok_iff.mp taken
          rw [steps_bare] at follows
          exact (leadsToFolder_iff top).mpr ⟨relative_of_bare relative, location,
            ⟨entries, found⟩, follows.of_unlinked top (by simp [found])⟩
      · cases made

theorem leadsToFolder_ensureFolder {after : Node} (top : IsFolder tree [])
    (made : ensureFolder path tree = .ok after) : LeadsToFolder after path := by
  unfold ensureFolder at made
  split at made
  · next entries found =>
      cases made
      exact ⟨entries, found⟩
  · cases made
  · exact leadsToFolder_makeFolder top made

/-- Making folders ends with the folder. -/
theorem leadsToFolder_makeFolders {after : Node} (top : IsFolder tree [])
    (made : makeFolders path tree = .ok after) : LeadsToFolder after path := by
  rw [makeFolders] at made
  generalize Path.parents path = parents at made
  induction parents generalizing tree with
  | nil =>
      cases last : ensureFolder path tree with
      | error failure =>
          rw [List.nil_append, List.foldlM_cons, last] at made
          cases made
      | ok made' =>
          rw [List.nil_append, List.foldlM_cons, last] at made
          cases made
          exact leadsToFolder_ensureFolder top last
  | cons parent parents ih =>
      rw [List.cons_append, List.foldlM_cons] at made
      cases first : ensureFolder parent tree with
      | error failure =>
          rw [first] at made
          cases made
      | ok middle =>
          rw [first] at made
          exact ih (top.grow (grows_ensureFolder top first)) made

end Folders

end Stencil.Files
