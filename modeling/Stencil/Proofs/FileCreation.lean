import Stencil.Proofs.FileReplacement

/-!
# Making new files and folders

A tree grows when something is put where nothing was.  Every path that led
somewhere before leads there still, so what could be read reads the same, and the
path that found a free place leads to what was put there.
-/

namespace Stencil.Files

/-- There is a folder at a location. -/
def IsFolder (tree : Node) (location : Location) : Prop :=
  ∃ entries, tree.get? location = some (.folder entries)

instance (tree : Node) (location : Location) : Decidable (IsFolder tree location) :=
  decidable_of_iff ((tree.get? location).any Node.isFolder = true) <| by
    unfold IsFolder
    cases tree.get? location with
    | none => simp
    | some node => cases node <;> simp [Node.isFolder]

namespace Node

theorem get?_append (tree : Node) (above below : Location) :
    tree.get? (above ++ below) = (tree.get? above).bind (·.get? below) := by
  induction above generalizing tree with
  | nil => rw [List.nil_append, get?, Option.bind_some]
  | cons name above ih =>
      cases tree with
      | file content => simp [get?]
      | link target => simp [get?]
      | folder entries =>
          rw [List.cons_append, get?, get?]
          cases Keyed.get? entries name with
          | none => rfl
          | some child => exact ih child

end Node

/-- What is there is in a folder. -/
theorem isFolder_of_get?_concat {tree node : Node} {parent : Location} {name : Bytes}
    (found : tree.get? (parent ++ [name]) = some node) : IsFolder tree parent := by
  rw [Node.get?_append] at found
  obtain ⟨above, inside, child⟩ := Option.bind_eq_some_iff.mp found
  obtain ⟨entries, -, rfl, -⟩ := Node.get?_cons_eq_some child
  exact ⟨entries, inside⟩

theorem IsFolder.dropLast {tree : Node} {location : Location} (inside : IsFolder tree location) :
    IsFolder tree location.dropLast := by
  rcases List.eq_nil_or_concat location with rfl | ⟨parent, name, rfl⟩
  · exact inside
  · rw [List.concat_eq_append, List.dropLast_concat]
    rw [List.concat_eq_append] at inside
    obtain ⟨entries, found⟩ := inside
    exact isFolder_of_get?_concat found

/-- A spot that is what it says. -/
def Spot.Sound (tree : Node) : Spot → Prop
  | .taken location => ∃ node, tree.get? location = some node
  | .free location =>
      tree.get? location = none ∧ ∃ parent name, location = parent ++ [name] ∧ IsFolder tree parent

/-- A halt at what it says. -/
def Halt.Sound (tree : Node) : Halt → Prop
  | .arrived spot => spot.Sound tree
  | .refused _ => True
  | .link folder name target _ =>
      IsFolder tree folder ∧ tree.get? (folder ++ [name]) = some (.link target)

section Sound

variable {tree : Node}

theorem advance_sound {folder : Location} (inside : IsFolder tree folder) (names : List Bytes) :
    (advance tree folder names).Sound tree := by
  induction names generalizing folder with
  | nil =>
      obtain ⟨entries, found⟩ := inside
      exact ⟨_, found⟩
  | cons name rest ih =>
      rw [advance]
      split
      · exact ih inside
      split
      · exact ih inside.dropLast
      cases found : tree.get? (folder ++ [name]) with
      | none =>
          dsimp only
          split
          · exact ⟨found, folder, name, rfl, inside⟩
          · trivial
      | some node =>
          cases node with
          | folder entries => exact ih ⟨entries, found⟩
          | link target => exact ⟨inside, found⟩
          | file content =>
              dsimp only
              split
              · exact ⟨_, found⟩
              · trivial

/-- How steps lead to a spot through at most so many links. -/
inductive Follows (tree : Node) (last : Bool) : Nat → Location → List Bytes → Spot → Prop where
  | arrives {links : Nat} {folder : Location} {names : List Bytes} {spot : Spot}
      (halt : advance tree folder names = .arrived spot) :
      Follows tree last links folder names spot
  /-- A link at the end is not followed. -/
  | stops {links : Nat} {folder parent : Location} {names rest : List Bytes} {name target : Bytes}
      (halt : advance tree folder names = .link parent name target rest)
      (ends : (rest.isEmpty && !last) = true) :
      Follows tree last links folder names (.taken (parent ++ [name]))
  | through {links : Nat} {folder parent : Location} {names rest : List Bytes}
      {name target : Bytes} {spot : Spot}
      (halt : advance tree folder names = .link parent name target rest)
      (goesOn : (rest.isEmpty && !last) = false) (relative : Path.isAbsolute target = false)
      (further : Follows tree last links parent (steps target ++ rest) spot) :
      Follows tree last (links + 1) folder names spot

theorem follows_of_follow {last : Bool} {links : Nat} {folder : Location} {names : List Bytes}
    {spot : Spot} (leads : follow tree last links folder names = .ok spot) :
    Follows tree last links folder names spot := by
  induction links generalizing folder names with
  | zero =>
      rw [follow] at leads
      cases halt : advance tree folder names with
      | arrived arrived =>
          rw [halt] at leads
          cases leads
          exact .arrives halt
      | refused refusal =>
          rw [halt] at leads
          cases leads
      | link parent name target rest =>
          rw [halt] at leads
          dsimp only at leads
          split at leads
          · next ends =>
              cases leads
              exact .stops halt ends
          · cases leads
  | succ links ih =>
      rw [follow] at leads
      cases halt : advance tree folder names with
      | arrived arrived =>
          rw [halt] at leads
          cases leads
          exact .arrives halt
      | refused refusal =>
          rw [halt] at leads
          cases leads
      | link parent name target rest =>
          rw [halt] at leads
          dsimp only at leads
          split at leads
          · next ends =>
              cases leads
              exact .stops halt ends
          · next goesOn =>
              split at leads
              · cases leads
              · next relative =>
                  rw [Bool.not_eq_true] at goesOn relative
                  exact .through halt goesOn relative (ih leads)

theorem Follows.follow_eq {last : Bool} {links : Nat} {folder : Location} {names : List Bytes}
    {spot : Spot} (follows : Follows tree last links folder names spot) :
    follow tree last links folder names = .ok spot := by
  induction follows with
  | arrives halt =>
      rw [follow]
      simp only [halt]
  | stops halt ends =>
      rw [follow]
      simp only [halt, ends, if_true]
  | through halt goesOn relative further ih =>
      rw [follow]
      simp only [halt, goesOn, relative, Bool.false_eq_true, if_false, ih]

theorem resolve_eq_ok_iff {last : Bool} {path : Bytes} {spot : Spot} :
    resolve tree last path = .ok spot ↔
      (path.isEmpty || Path.isAbsolute path) = false ∧
        Follows tree last maxLinks [] (steps path) spot := by
  rw [resolve]
  split
  · next refused => simp [refused]
  · next follows =>
      rw [Bool.not_eq_true] at follows
      rw [follows]
      constructor
      · intro leads
        exact ⟨rfl, follows_of_follow leads⟩
      · intro leads
        exact leads.2.follow_eq

theorem Follows.sound {last : Bool} {links : Nat} {folder : Location} {names : List Bytes}
    {spot : Spot} (follows : Follows tree last links folder names spot)
    (inside : IsFolder tree folder) : spot.Sound tree := by
  induction follows with
  | @arrives links folder names spot halt =>
      have sound := advance_sound inside names
      rw [halt] at sound
      exact sound
  | @stops links folder parent names rest name target halt ends =>
      have sound := advance_sound inside names
      rw [halt] at sound
      exact ⟨_, sound.2⟩
  | @through links folder parent names rest name target spot halt goesOn relative further ih =>
      have sound := advance_sound inside names
      rw [halt] at sound
      exact ih sound.1

theorem resolve_sound (top : IsFolder tree []) {last : Bool} {path : Bytes} {spot : Spot}
    (leads : resolve tree last path = .ok spot) : spot.Sound tree :=
  (resolve_eq_ok_iff.mp leads).2.sound top

/-- It does not matter whether links at the end are followed when there is none. -/
theorem Follows.of_unlinked {last : Bool} {links : Nat} {folder location : Location}
    {names : List Bytes} (follows : Follows tree last links folder names (.taken location))
    (inside : IsFolder tree folder) (ends : ∀ target, tree.get? location ≠ some (.link target)) :
    Follows tree true links folder names (.taken location) := by
  generalize spelled : Spot.taken location = spot at follows
  induction follows with
  | arrives halt =>
      subst spelled
      exact .arrives halt
  | @stops links folder parent names rest name target halt last =>
      cases spelled
      have sound := advance_sound inside names
      rw [halt] at sound
      exact absurd sound.2 (ends target)
  | @through links folder parent names rest name target spot halt goesOn relative further ih =>
      have sound := advance_sound inside names
      rw [halt] at sound
      exact .through halt (Bool.and_false _) relative (ih sound.1 spelled)

theorem resolve_of_file (top : IsFolder tree []) {last : Bool} {path content : Bytes}
    {location : Location} (leads : resolve tree last path = .ok (.taken location))
    (found : tree.get? location = some (.file content)) :
    resolve tree true path = .ok (.taken location) := by
  obtain ⟨relative, follows⟩ := resolve_eq_ok_iff.mp leads
  have ends : ∀ target, tree.get? location ≠ some (.link target) := by simp [found]
  exact resolve_eq_ok_iff.mpr ⟨relative, follows.of_unlinked top ends⟩

end Sound

/-- What is kept of a node in a tree that grows. -/
inductive Kept : Node → Node → Prop where
  | file (content : Bytes) : Kept (.file content) (.file content)
  | link (target : Bytes) : Kept (.link target) (.link target)
  | folder (left right : List (Bytes × Node)) : Kept (.folder left) (.folder right)

theorem Kept.refl (node : Node) : Kept node node := by
  cases node with
  | file content => exact .file content
  | link target => exact .link target
  | folder entries => exact .folder entries entries

theorem Kept.trans {first second third : Node} (left : Kept first second)
    (right : Kept second third) : Kept first third := by
  cases left with
  | file content => exact right
  | link target => exact right
  | folder before middle =>
      cases right with
      | folder _ after => exact .folder before after

/-- Everything that was there is still there, but folders may hold more. -/
def Grows (before after : Node) : Prop :=
  ∀ location node, before.get? location = some node →
    ∃ kept, after.get? location = some kept ∧ Kept node kept

namespace Grows

theorem refl (tree : Node) : Grows tree tree :=
  fun _ node found => ⟨node, found, .refl node⟩

theorem trans {first second third : Node} (left : Grows first second)
    (right : Grows second third) : Grows first third := by
  intro location node found
  obtain ⟨middle, inside, keeps⟩ := left location node found
  obtain ⟨last, there, further⟩ := right location middle inside
  exact ⟨last, there, keeps.trans further⟩

variable {before after : Node}

/-- Steps that do not come to a halt for want of something are taken as before. -/
theorem advance_eq (grows : Grows before after) (folder : Location) (names : List Bytes) :
    (∃ location, advance before folder names = .arrived (.free location)) ∨
      (∃ refusal, advance before folder names = .refused refusal) ∨
      advance after folder names = advance before folder names := by
  induction names generalizing folder with
  | nil => exact .inr (.inr rfl)
  | cons name rest ih =>
      rw [advance, advance]
      split
      · exact ih folder
      split
      · exact ih folder.dropLast
      cases found : before.get? (folder ++ [name]) with
      | none =>
          dsimp only
          split
          · exact .inl ⟨_, rfl⟩
          · exact .inr (.inl ⟨_, rfl⟩)
      | some node =>
          obtain ⟨kept, there, keeps⟩ := grows _ _ found
          rw [there]
          cases keeps with
          | file content => exact .inr (.inr rfl)
          | link target => exact .inr (.inr rfl)
          | folder left right => exact ih (folder ++ [name])

theorem follows_taken (grows : Grows before after) {last : Bool} {links : Nat}
    {folder location : Location} {names : List Bytes}
    (follows : Follows before last links folder names (.taken location)) :
    Follows after last links folder names (.taken location) := by
  generalize spelled : Spot.taken location = spot at follows
  induction follows with
  | @arrives links folder names spot halt =>
      subst spelled
      obtain ⟨place, free⟩ | ⟨refusal, refused⟩ | same := grows.advance_eq folder names
      · cases halt.symm.trans free
      · cases halt.symm.trans refused
      · exact .arrives (same.trans halt)
  | @stops links folder parent names rest name target halt ends =>
      obtain ⟨place, free⟩ | ⟨refusal, refused⟩ | same := grows.advance_eq folder names
      · cases halt.symm.trans free
      · cases halt.symm.trans refused
      · exact .stops (same.trans halt) ends
  | @through links folder parent names rest name target spot halt goesOn relative further ih =>
      obtain ⟨place, free⟩ | ⟨refusal, refused⟩ | same := grows.advance_eq folder names
      · cases halt.symm.trans free
      · cases halt.symm.trans refused
      · exact .through (same.trans halt) goesOn relative (ih spelled)

theorem resolve_taken (grows : Grows before after) {last : Bool} {path : Bytes}
    {location : Location} (leads : resolve before last path = .ok (.taken location)) :
    resolve after last path = .ok (.taken location) := by
  obtain ⟨relative, follows⟩ := resolve_eq_ok_iff.mp leads
  exact resolve_eq_ok_iff.mpr ⟨relative, grows.follows_taken follows⟩

/-- What could be read reads the same. -/
theorem read_eq (grows : Grows before after) {path content : Bytes}
    (readable : read before path = .ok content) : read after path = .ok content := by
  obtain ⟨location, leads, found⟩ := find_eq_ok_iff.mp (read_eq_ok_iff.mp readable)
  obtain ⟨kept, there, keeps⟩ := grows _ _ found
  cases keeps with
  | file content =>
      exact read_eq_ok_iff.mpr (find_eq_ok_iff.mpr ⟨location, grows.resolve_taken leads, there⟩)

/-- What was put at the free place that steps lead to is where they lead then, unless it
is a link. -/
theorem advance_free (grows : Grows before after) {folder location : Location}
    {names : List Bytes} {new : Node} (there : after.get? location = some new)
    (noLink : ∀ target, new ≠ .link target)
    (free : advance before folder names = .arrived (.free location)) :
    advance after folder names = .arrived (.taken location) := by
  induction names generalizing folder with
  | nil => cases free
  | cons name rest ih =>
      rw [advance] at free ⊢
      split at free
      · next isHere =>
          rw [if_pos isHere]
          exact ih free
      · next notHere =>
          rw [if_neg notHere]
          split at free
          · next isAbove =>
              rw [if_pos isAbove]
              exact ih free
          · next notAbove =>
              rw [if_neg notAbove]
              cases found : before.get? (folder ++ [name]) with
              | none =>
                  -- This is the free place, and the new node stands there now.
                  rw [found] at free
                  dsimp only at free
                  split at free
                  · next ends =>
                      cases free
                      rw [there]
                      cases new with
                      | file content => exact if_pos ends
                      | link target => exact absurd rfl (noLink target)
                      | folder entries =>
                          obtain rfl := List.isEmpty_iff.mp ends
                          rfl
                  · cases free
              | some node =>
                  obtain ⟨kept, still, keeps⟩ := grows _ _ found
                  rw [found] at free
                  rw [still]
                  cases keeps with
                  | file content =>
                      dsimp only at free
                      split at free <;> cases free
                  | link target => cases free
                  | folder left right => exact ih free

theorem follows_free (grows : Grows before after) {last : Bool} {links : Nat}
    {folder location : Location} {names : List Bytes} {new : Node}
    (there : after.get? location = some new) (noLink : ∀ target, new ≠ .link target)
    (follows : Follows before last links folder names (.free location)) :
    Follows after true links folder names (.taken location) := by
  generalize spelled : Spot.free location = spot at follows
  induction follows with
  | arrives halt =>
      subst spelled
      exact .arrives (grows.advance_free there noLink halt)
  | stops halt ends => cases spelled
  | @through links folder parent names rest name target spot halt goesOn relative further ih =>
      obtain ⟨place, free⟩ | ⟨refusal, refused⟩ | same := grows.advance_eq folder names
      · cases halt.symm.trans free
      · cases halt.symm.trans refused
      · exact .through (same.trans halt) (Bool.and_false _) relative (ih spelled)

/-- The path that found a free place leads to the file that was put there. -/
theorem read_free (grows : Grows before after) {last : Bool} {path content : Bytes}
    {location : Location} (there : after.get? location = some (.file content))
    (free : resolve before last path = .ok (.free location)) : read after path = .ok content := by
  obtain ⟨relative, follows⟩ := resolve_eq_ok_iff.mp free
  have leads := resolve_eq_ok_iff.mpr
    ⟨relative, grows.follows_free there (fun _ => Node.noConfusion) follows⟩
  exact read_eq_ok_iff.mpr (find_eq_ok_iff.mpr ⟨location, leads, there⟩)

end Grows

section Put

variable {tree : Node} {parent : Location} {name : Bytes}

theorem get?_put_child (inside : IsFolder tree parent) (new : Node) :
    (tree.put (parent ++ [name]) new).get? (parent ++ [name]) = some new := by
  obtain ⟨entries, found⟩ := inside
  induction parent generalizing tree with
  | nil =>
      cases found
      simp [Node.put, Node.get?]
  | cons first parent ih =>
      obtain ⟨others, child, rfl, inside, below⟩ := Node.get?_cons_eq_some found
      rw [List.cons_append, Node.put_cons inside, Node.get?, Keyed.get?_put_self]
      exact ih below

theorem grows_put_child (inside : IsFolder tree parent)
    (free : tree.get? (parent ++ [name]) = none) (new : Node) :
    Grows tree (tree.put (parent ++ [name]) new) := by
  obtain ⟨entries, found⟩ := inside
  -- On the way to the child there are only folders, and beside the way nothing changes.
  induction parent generalizing tree with
  | nil =>
      cases found
      intro location node there
      cases location with
      | nil =>
          cases there
          exact ⟨_, rfl, .folder _ _⟩
      | cons first location =>
          have differ : first ≠ name := by
            rintro rfl
            rw [List.nil_append, Node.get?] at free
            rw [Node.get?] at there
            split at free
            · cases free
            · next absent =>
                rw [absent] at there
                cases there
          refine ⟨node, ?_, .refl node⟩
          rw [List.nil_append, Node.put, Node.get?, Keyed.get?_put_of_ne differ]
          exact there
  | cons first parent ih =>
      obtain ⟨others, child, rfl, inside, below⟩ := Node.get?_cons_eq_some found
      rw [List.cons_append, Node.get?, inside] at free
      rw [List.cons_append, Node.put_cons inside]
      intro location node there
      cases location with
      | nil =>
          cases there
          exact ⟨_, rfl, .folder _ _⟩
      | cons other location =>
          by_cases same : other = first
          · subst same
            rw [Node.get?, inside] at there
            rw [Node.get?, Keyed.get?_put_self]
            exact ih free below location node there
          · refine ⟨node, ?_, .refl node⟩
            rw [Node.get?, Keyed.get?_put_of_ne same]
            exact there

end Put

section Free

variable {tree : Node} {last : Bool} {path : Bytes} {location : Location}

/-- A tree grows when something is put at a free place. -/
theorem grows_put_free (top : IsFolder tree [])
    (free : resolve tree last path = .ok (.free location))
    (new : Node) : Grows tree (tree.put location new) := by
  obtain ⟨absent, parent, name, rfl, inside⟩ := resolve_sound top free
  exact grows_put_child inside absent new

theorem read_put_free (top : IsFolder tree [])
    (free : resolve tree last path = .ok (.free location))
    (content : Bytes) : read (tree.put location (.file content)) path = .ok content := by
  have grows := grows_put_free top free (.file content)
  obtain ⟨absent, parent, name, rfl, inside⟩ := resolve_sound top free
  exact grows.read_free (get?_put_child inside _) free

end Free

theorem IsFolder.grow {before after : Node} {location : Location}
    (inside : IsFolder before location) (grows : Grows before after) : IsFolder after location := by
  obtain ⟨entries, found⟩ := inside
  obtain ⟨kept, there, keeps⟩ := grows _ _ found
  cases keeps with
  | folder left right => exact ⟨right, there⟩

/-- Trees that hold the same files and links in the same folders. -/
def Same (left right : Node) : Prop :=
  ∀ location, Option.Rel Kept (left.get? location) (right.get? location)

theorem Kept.rel_refl (node : Option Node) : Option.Rel Kept node node := by
  cases node with
  | none => exact .none
  | some node => exact .some (.refl node)

namespace Same

theorem refl (tree : Node) : Same tree tree :=
  fun _ => Kept.rel_refl _

variable {left right : Node}

theorem sameShape (same : Same left right) : SameShape left right := by
  intro location
  have related := same location
  generalize left.get? location = leftNode at related ⊢
  generalize right.get? location = rightNode at related ⊢
  cases related with
  | none => exact .missing
  | some keeps =>
      cases keeps with
      | file content => exact .file content content
      | link target => exact .link target
      | folder before after => exact .folder before after

theorem findsAlike (same : Same left right) (path : Bytes) : FindsAlike left right path := by
  apply same.sameShape.findsAlike
  intro place _ content
  have related := same place
  generalize left.get? place = leftNode at related ⊢
  generalize right.get? place = rightNode at related ⊢
  cases related with
  | none => rfl
  | some keeps =>
      cases keeps with
      | file content => rfl
      | link target => rfl
      | folder before after => simp

end Same

theorem Node.erase_cons {entries : List (Bytes × Node)} {name : Bytes} {child : Node}
    (inside : Keyed.get? entries name = some child) {location : Location}
    (below : location ≠ []) :
    (Node.folder entries).erase (name :: location) =
      .folder (Keyed.put name (child.erase location) entries) := by
  cases location with
  | nil => exact absurd rfl below
  | cons next location => simp [erase, inside]

/-- A node that is put at a free place and taken out again leaves the tree as it was. -/
theorem same_erase_put {tree : Node} {parent : Location} {name : Bytes}
    (inside : IsFolder tree parent) (free : tree.get? (parent ++ [name]) = none) (new : Node) :
    Same ((tree.put (parent ++ [name]) new).erase (parent ++ [name])) tree := by
  obtain ⟨entries, found⟩ := inside
  induction parent generalizing tree with
  | nil =>
      cases found
      intro location
      cases location with
      | nil => exact .some (.folder _ _)
      | cons first location =>
          have missing : Keyed.get? entries name = none := by
            rw [List.nil_append, Node.get?] at free
            split at free
            · cases free
            · assumption
          rw [List.nil_append, Node.put, Node.erase, Node.get?, Node.get?, Keyed.get?_erase]
          by_cases same : first = name
          · rw [if_pos same, same, missing]
            exact .none
          · rw [if_neg same, Keyed.get?_put_of_ne same]
            exact Kept.rel_refl _
  | cons first parent ih =>
      obtain ⟨others, child, rfl, inside, below⟩ := Node.get?_cons_eq_some found
      rw [List.cons_append, Node.get?, inside] at free
      rw [List.cons_append, Node.put_cons inside,
        Node.erase_cons (Keyed.get?_put_self _ _ _) (List.concat_ne_nil _ _)]
      intro location
      cases location with
      | nil => exact .some (.folder _ _)
      | cons other location =>
          by_cases same : other = first
          · subst same
            rw [Node.get?, Node.get?, Keyed.get?_put_self, inside]
            exact ih free below location
          · rw [Node.get?, Node.get?, Keyed.get?_put_of_ne same, Keyed.get?_put_of_ne same]
            exact Kept.rel_refl _

theorem grows_makeFolder {tree after : Node} {path : Bytes} (top : IsFolder tree [])
    (made : makeFolder path tree = .ok after) : Grows tree after := by
  unfold makeFolder at made
  split at made
  · cases made
  · next free =>
      cases made
      exact grows_put_free top free _
  · split at made
    · cases made
      exact .refl _
    · cases made

theorem grows_ensureFolder {tree after : Node} {path : Bytes} (top : IsFolder tree [])
    (made : ensureFolder path tree = .ok after) : Grows tree after := by
  unfold ensureFolder at made
  split at made
  · cases made
    exact .refl _
  · cases made
  · exact grows_makeFolder top made

/-- Making folders takes nothing away. -/
theorem grows_makeFolders {tree after : Node} {path : Bytes} (top : IsFolder tree [])
    (made : makeFolders path tree = .ok after) : Grows tree after := by
  unfold makeFolders at made
  generalize Path.parents path ++ [path] = folders at made
  induction folders generalizing tree with
  | nil =>
      cases made
      exact .refl _
  | cons folder folders ih =>
      rw [List.foldlM_cons] at made
      cases first : ensureFolder folder tree with
      | error failure =>
          rw [first] at made
          cases made
      | ok middle =>
          rw [first] at made
          have grows := grows_ensureFolder top first
          exact grows.trans (ih (top.grow grows) made)

end Stencil.Files
