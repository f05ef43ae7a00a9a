import Stencil.Proofs.FollowedPath

/-!
# A file in the place of a link

A file that takes the place of a link is where the path to the link leads from then
on.  Paths through the link would come to an end there, so this asks for a link that
leads to no folder: then no path to a folder goes through it.
-/

namespace Stencil.Files

/-- Nothing else is touched when a file is put in the place of a link. -/
theorem get?_put_link {tree : Node} {location place : Location} {target : Bytes}
    (found : tree.get? location = some (.link target)) (differ : place ≠ location)
    (content : Bytes) :
    Option.Rel Kept (tree.get? place) ((tree.put location (.file content)).get? place) := by
  induction location generalizing tree place with
  | nil =>
      simp only [Node.get?, Option.some.injEq] at found
      subst found
      cases place with
      | nil => exact absurd rfl differ
      | cons name place => exact .none
  | cons name location ih =>
      obtain ⟨entries, child, rfl, inside, below⟩ := Node.get?_cons_eq_some found
      rw [Node.put_cons inside]
      cases place with
      | nil => exact .some (.folder _ _)
      | cons other place =>
          by_cases same : other = name
          · subst same
            have apart : place ≠ location := fun same => differ (by rw [same])
            rw [Node.get?, Node.get?, Keyed.get?_put_self, inside]
            exact ih below apart
          · rw [Node.get?, Node.get?, Keyed.get?_put_of_ne same]
            exact Kept.rel_refl _

section Blind

variable {tree : Node} {parent : Location} {name target : Bytes}

/-- A link that leads to no folder. -/
structure Blind (tree : Node) (parent : Location) (name target : Bytes) : Prop where
  there : tree.get? (parent ++ [name]) = some (.link target)
  noFolder : Path.isAbsolute target = false → ∀ links location,
    Follows tree true links parent (steps target) (.taken location) → ¬ IsFolder tree location

/-- Steps are taken as before, or up to the place where the link was. -/
theorem advance_put_link (there : tree.get? (parent ++ [name]) = some (.link target))
    (content : Bytes) (folder : Location) (names : List Bytes) :
    ((∀ rest, advance tree folder names ≠ .link parent name target rest) ∧
        advance (tree.put (parent ++ [name]) (.file content)) folder names =
          advance tree folder names) ∨
      ∃ rest, advance tree folder names = .link parent name target rest ∧
        (rest = [] → advance (tree.put (parent ++ [name]) (.file content)) folder names =
          .arrived (.taken (parent ++ [name]))) := by
  induction names generalizing folder with
  | nil => exact .inl ⟨by simp [advance], rfl⟩
  | cons next rest ih =>
      rw [advance, advance]
      split
      · exact ih folder
      split
      · exact ih folder.dropLast
      by_cases arrives : folder ++ [next] = parent ++ [name]
      · obtain ⟨rfl, rfl⟩ : folder = parent ∧ next = name := by simpa using arrives
        rw [there, Node.get?_put_self there]
        refine .inr ⟨rest, rfl, ?_⟩
        rintro rfl
        rfl
      · have related := get?_put_link there arrives content
        generalize after :
          (tree.put (parent ++ [name]) (.file content)).get? (folder ++ [next]) = now at related
        generalize before : tree.get? (folder ++ [next]) = earlier at related
        cases related with
        | none =>
            refine .inl ⟨?_, rfl⟩
            dsimp only
            split <;> simp
        | some keeps =>
            cases keeps with
            | file content =>
                refine .inl ⟨?_, rfl⟩
                dsimp only
                split <;> simp
            | link other =>
                refine .inl ⟨?_, rfl⟩
                intro others same
                cases same
                exact arrives rfl
            | folder left right => exact ih (folder ++ [next])

theorem Blind.not_followed (blind : Blind tree parent name target) {last : Bool} {links : Nat}
    {rest : List Bytes} {location : Location} (inside : IsFolder tree parent)
    (relative : Path.isAbsolute target = false) (goesOn : (rest.isEmpty && !last) = false)
    (further : Follows tree last links parent (steps target ++ rest) (.taken location)) :
    ¬ (last = true → IsFolder tree location) := by
  intro isFolder
  cases rest with
  | nil =>
      obtain rfl : last = true := by simpa using goesOn
      rw [List.append_nil] at further
      exact blind.noFolder relative _ _ further (isFolder rfl)
  | cons next rest =>
      obtain ⟨middle, leads, before⟩ := further.before inside (List.cons_ne_nil _ _)
      exact blind.noFolder relative _ _ before leads

/-- Steps to a folder or to the link lead there when a file has taken its place. -/
theorem Blind.follows (blind : Blind tree parent name target) (content : Bytes) {last : Bool}
    {links : Nat} {folder location : Location} {names : List Bytes}
    (follows : Follows tree last links folder names (.taken location))
    (inside : IsFolder tree folder)
    (leads : IsFolder tree location ∨ last = false ∧ location = parent ++ [name]) :
    Follows (tree.put (parent ++ [name]) (.file content)) true links folder names
      (.taken location) := by
  generalize spelled : Spot.taken location = spot at follows
  induction follows with
  | @arrives links folder names spot halt =>
      subst spelled
      obtain ⟨-, same⟩ | ⟨rest, linked, -⟩ := advance_put_link blind.there content folder names
      · exact .arrives (same.trans halt)
      · cases linked.symm.trans halt
  | @stops links folder above names rest other aim halt ends =>
      cases spelled
      have sound := advance_sound inside names
      rw [halt] at sound
      rcases leads with ⟨entries, isFolder⟩ | ⟨-, same⟩
      · cases sound.2.symm.trans isFolder
      obtain ⟨rfl, rfl⟩ : above = parent ∧ other = name := by simpa using same
      cases sound.2.symm.trans blind.there
      obtain ⟨apart, -⟩ | ⟨rest, linked, arrives⟩ :=
        advance_put_link blind.there content folder names
      · exact absurd halt (apart _)
      · cases linked.symm.trans halt
        apply Follows.arrives
        apply arrives
        simp at ends
        exact ends.1
  | @through links folder above names rest other aim spot halt goesOn relative further ih =>
      subst spelled
      have sound := advance_sound inside names
      rw [halt] at sound
      obtain ⟨-, same⟩ | ⟨rest, linked, -⟩ := advance_put_link blind.there content folder names
      · exact .through (same.trans halt) (Bool.and_false _) relative (ih sound.1 rfl)
      · cases linked.symm.trans halt
        refine absurd ?_ (blind.not_followed sound.1 relative goesOn further)
        intro isLast
        rcases leads with isFolder | ⟨notLast, -⟩
        · exact isFolder
        · exact Bool.noConfusion (isLast.symm.trans notLast)

theorem advance_ne_link {folder location : Location} {names : List Bytes}
    (inside : IsFolder tree folder)
    (arrives : advance tree folder names = .arrived (.taken location)) (target : Bytes) : tree.get? location ≠ some (.link target) := by
  induction names generalizing folder with
  | nil =>
      cases arrives
      obtain ⟨entries, found⟩ := inside
      simp [found]
  | cons name rest ih =>
      rw [advance] at arrives
      split at arrives
      · exact ih inside arrives
      split at arrives
      · exact ih inside.dropLast arrives
      cases found : tree.get? (folder ++ [name]) with
      | none =>
          rw [found] at arrives
          dsimp only at arrives
          split at arrives <;> cases arrives
      | some node =>
          rw [found] at arrives
          cases node with
          | folder entries => exact ih ⟨entries, found⟩ arrives
          | link target => cases arrives
          | file content =>
              dsimp only at arrives
              split at arrives
              · cases arrives
                simp [found]
              · cases arrives

/-- Steps that end at a link go on with its target when they follow it. -/
theorem Follows.at_link {links : Nat} {folder location : Location} {names : List Bytes}
    (follows : Follows tree false links folder names (.taken location))
    (inside : IsFolder tree folder) (found : tree.get? location = some (.link target)) :
    ∃ parent name, location = parent ++ [name] ∧
      (follow tree true links folder names = .error .tooManyLinks ∨
        Path.isAbsolute target = true ∨
        ∃ left, follow tree true links folder names =
          follow tree true left parent (steps target)) := by
  generalize spelled : Spot.taken location = spot at follows
  induction follows with
  | @arrives links folder names spot halt =>
      subst spelled
      exact absurd found (advance_ne_link inside halt target)
  | @stops links folder parent names rest name aim halt ends =>
      cases spelled
      have sound := advance_sound inside names
      rw [halt] at sound
      cases sound.2.symm.trans found
      refine ⟨parent, name, rfl, ?_⟩
      obtain rfl : rest = [] := by simpa using ends
      cases links with
      | zero =>
          left
          rw [follow]
          simp [halt]
      | succ left =>
          cases absolute : Path.isAbsolute target with
          | true => exact .inr (.inl rfl)
          | false =>
              refine .inr (.inr ⟨left, ?_⟩)
              rw [follow]
              simp [halt, absolute]
  | @through links folder above names rest name aim spot halt goesOn relative further ih =>
      have sound := advance_sound inside names
      rw [halt] at sound
      have goesThrough : follow tree true (links + 1) folder names =
          follow tree true links above (steps aim ++ rest) := by
        rw [follow]
        simp [halt, relative]
      rw [goesThrough]
      exact ih sound.1 spelled

/-- A path that neither leads to a folder nor goes through too many links can only end at
a link that leads to no folder. -/
theorem blind_of_resolve (top : IsFolder tree []) {path : Bytes} {location : Location}
    (taken : resolve tree false path = .ok (.taken location))
    (found : tree.get? location = some (.link target))
    (noFolder : ¬ LeadsToFolder tree path)
    (enough : resolve tree true path ≠ .error .tooManyLinks) :
    ∃ parent name, location = parent ++ [name] ∧ Blind tree parent name target := by
  obtain ⟨relative, follows⟩ := resolve_eq_ok_iff.mp taken
  have unfolded : ∀ last, resolve tree last path = follow tree last maxLinks [] (steps path) :=
    fun last => by rw [resolve, relative]; rfl
  rw [unfolded] at enough
  obtain ⟨parent, name, rfl, goesOn⟩ := follows.at_link top found
  refine ⟨parent, name, rfl, found, ?_⟩
  intro notAbsolute links location behind isFolder
  obtain tooMany | absolute | ⟨left, same⟩ := goesOn
  · exact enough tooMany
  · exact Bool.noConfusion (absolute.symm.trans notAbsolute)
  · -- With as many links as the larger of both budgets allows, both ways are one.
    have arrived := behind.follow_eq
    have sufficient : follow tree true links parent (steps target) ≠ .error .tooManyLinks := by
      simp [arrived]
    have one := follow_of_le (Nat.le_max_left links left) sufficient
    have other := follow_of_le (Nat.le_max_right links left) (same ▸ enough)
    apply noFolder
    apply leadsToFolder_iff_resolve.mpr
    refine ⟨location, isFolder, ?_⟩
    rw [unfolded, same, ← other, one, arrived]

end Blind

section Replaced

variable {tree : Node} {path : Bytes} {location : Location} {target : Bytes}

/-- The path to a link that leads to no folder reads the file that takes its place. -/
theorem read_put_link (top : IsFolder tree [])
    (taken : resolve tree false path = .ok (.taken location))
    (found : tree.get? location = some (.link target)) (noFolder : ¬ LeadsToFolder tree path)
    (enough : resolve tree true path ≠ .error .tooManyLinks) (content : Bytes) :
    read (tree.put location (.file content)) path = .ok content := by
  obtain ⟨parent, name, rfl, blind⟩ := blind_of_resolve top taken found noFolder enough
  obtain ⟨relative, follows⟩ := resolve_eq_ok_iff.mp taken
  have leads := blind.follows content follows top (.inr ⟨rfl, rfl⟩)
  exact read_eq_ok_iff.mpr (find_eq_ok_iff.mpr
    ⟨_, resolve_eq_ok_iff.mpr ⟨relative, leads⟩, Node.get?_put_self found _⟩)

theorem LeadsToFolder.put_link {folder : Bytes} (leads : LeadsToFolder tree folder)
    (taken : resolve tree false path = .ok (.taken location))
    (found : tree.get? location = some (.link target)) (noFolder : ¬ LeadsToFolder tree path)
    (enough : resolve tree true path ≠ .error .tooManyLinks) (content : Bytes) :
    LeadsToFolder (tree.put location (.file content)) folder := by
  have top := leads.top
  obtain ⟨parent, name, rfl, blind⟩ := blind_of_resolve top taken found noFolder enough
  obtain ⟨place, isFolder, arrives⟩ := leadsToFolder_iff_resolve.mp leads
  obtain ⟨relative, follows⟩ := resolve_eq_ok_iff.mp arrives
  apply leadsToFolder_iff_resolve.mpr
  refine ⟨place, ?_, resolve_eq_ok_iff.mpr
    ⟨relative, blind.follows content follows top (.inl isFolder)⟩⟩
  obtain ⟨entries, inside⟩ := isFolder
  have differ : place ≠ parent ++ [name] := by
    rintro rfl
    cases inside.symm.trans found
  have related := get?_put_link found differ content
  rw [inside] at related
  generalize after : (tree.put (parent ++ [name]) (.file content)).get? place = now at related
  cases related with
  | some keeps =>
      cases keeps with
      | folder before entries => exact ⟨entries, after⟩

end Replaced

end Stencil.Files
