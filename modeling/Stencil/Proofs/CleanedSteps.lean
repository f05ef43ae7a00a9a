import Stencil.Proofs.FollowedPath
import Stencil.Proofs.ScannedOnce

/-!
# Following a cleaned path

A path below a folder is cleaned as a whole, and the folders in it are entered by such
paths.  They lead to what is in the folder if the cleaned path of the folder leads to the
folder itself.  That is so unless the path goes up again: without a step up, cleaning
only leaves out steps that stay where they are.
-/

namespace Stencil

namespace Path

/-- The path of the place that names lead to from a folder. -/
def within (folder : Bytes) (names : List Bytes) : Bytes :=
  join folder (Bytes.join [byte '/'] names)

section Within

variable {folder name : Bytes} {names : List Bytes}

theorem foldl_push_entryNames (absolute : Bool) (cleaned : List Bytes)
    (all : ∀ name ∈ names, EntryName name) :
    names.foldl (push absolute) cleaned = names.reverse ++ cleaned := by
  induction names generalizing cleaned with
  | nil => rfl
  | cons name names ih =>
      obtain ⟨first, later⟩ := List.forall_mem_cons.mp all
      rw [List.foldl_cons, push_of_ne first.ne_here first.ne_above, ih _ later]
      simp

theorem leads_within (filled : folder ≠ []) (all : ∀ name ∈ names, EntryName name) :
    Leads folder names (within folder names) := by
  have filled' : ¬ folder.isEmpty = true := by simpa using filled
  have proper : ∀ name ∈ names, IsName name := fun name member => (all name member).isName
  rw [within, join, if_neg filled']
  apply Leads.clean
  refine ⟨isAbsolute_append filled _, ?_⟩
  rw [cleanNames, names_append, names_join proper, isAbsolute_append filled, List.foldl_append,
    foldl_push_entryNames _ _ all, List.reverse_append, List.reverse_reverse]
  rfl

/-- Two cleaned paths to one place are the same. -/
theorem Leads.eq_of_clean {root path other : Bytes} (leads : Leads root names path)
    (otherLeads : Leads root names other) (cleaned : Path.clean path = path)
    (otherCleaned : Path.clean other = other) : path = other := by
  rw [← cleaned, ← otherCleaned]
  apply clean_eq_of_cleanNames
  · rw [leads.absolute, otherLeads.absolute]
  · rw [leads.cleaned, otherLeads.cleaned]

theorem within_cons (filled : folder ≠ []) (all : ∀ part ∈ name :: names, EntryName part) :
    within folder (name :: names) = within (join folder name) names := by
  obtain ⟨first, later⟩ := List.forall_mem_cons.mp all
  have filledChild : join folder name ≠ [] := join_ne_nil filled
  have through := (Leads.join filled first).trans (leads_within filledChild later)
  exact (leads_within filled all).eq_of_clean through (clean_join filled _)
    (clean_join filledChild _)

theorem within_inj (filled : folder ≠ []) {others : List Bytes}
    (all : ∀ name ∈ names, EntryName name) (otherAll : ∀ name ∈ others, EntryName name)
    (same : within folder names = within folder others) : names = others := by
  have cleaned := (leads_within filled all).cleaned
  rw [same, (leads_within filled otherAll).cleaned] at cleaned
  exact (List.append_cancel_left cleaned).symm

end Within

theorem getLast?_join {parts : List Bytes} (proper : ∀ part ∈ parts, IsName part) :
    (Bytes.join [byte '/'] parts).getLast? ≠ some (byte '/') := by
  induction parts with
  | nil => decide
  | cons part parts ih =>
      obtain ⟨first, later⟩ := List.forall_mem_cons.mp proper
      cases parts with
      | nil =>
          intro last
          exact first.2 (List.mem_of_getLast? last)
      | cons next parts =>
          have filled : Bytes.join [byte '/'] (next :: parts) ≠ [] := by
            intro empty
            have names := names_join later
            rw [empty] at names
            cases names
          rw [Bytes.join, List.getLast?_append_of_ne_nil _ filled]
          · exact ih later
          · simp

end Path

namespace Files

variable {tree : Node}

/-- The steps of a cleaned path are its names. -/
theorem steps_clean {path : Bytes} (relative : Path.isAbsolute path = false) :
    steps (Path.clean path) =
      if Path.cleanNames path = [] then [Path.here] else Path.cleanNames path := by
  have proper : ∀ name ∈ Path.cleanNames path, Path.IsName name :=
    fun _ member => Path.isName_of_mem_cleanNames member
  have joined := Path.names_join proper
  rw [Path.clean, relative]
  by_cases none : Path.cleanNames path = []
  · rw [none]
    rfl
  · have filled : Bytes.join [byte '/'] (Path.cleanNames path) ≠ [] := by
      intro empty
      rw [empty] at joined
      exact none joined.symm
    simp only [none, List.isEmpty_iff, filled, Bool.false_eq_true, if_false]
    rw [steps, joined, if_neg (Path.getLast?_join proper), List.append_nil]

theorem follows_here_iff {last : Bool} {links : Nat} {folder : Location} {names : List Bytes}
    {spot : Spot} :
    Follows tree last links folder (Path.here :: names) spot ↔
      Follows tree last links folder names spot := by
  have same : follow tree last links folder (Path.here :: names) =
      follow tree last links folder names := by
    rw [follow, follow, advance, if_pos rfl]
  constructor
  · intro follows
    exact follows_of_follow (same.symm.trans follows.follow_eq)
  · intro follows
    exact follows_of_follow (same.trans follows.follow_eq)

theorem follows_steps_clean_iff {path : Bytes} (relative : Path.isAbsolute path = false)
    {last : Bool} {links : Nat} {folder : Location} {rest : List Bytes} {spot : Spot} :
    Follows tree last links folder (steps (Path.clean path) ++ rest) spot ↔
      Follows tree last links folder (Path.cleanNames path ++ rest) spot := by
  rw [steps_clean relative]
  split
  · next none =>
      rw [none]
      exact follows_here_iff
  · rfl

theorem isFolder_top {location : Location} (inside : IsFolder tree location) :
    IsFolder tree [] := by
  cases location with
  | nil => exact inside
  | cons name location =>
      obtain ⟨entries, found⟩ := inside
      obtain ⟨others, _, rfl, _⟩ := Node.get?_cons_eq_some found
      exact ⟨others, rfl⟩

section Child

variable {root name : Bytes} {entries others : List (Bytes × Node)}

/-- What is in the folder that a cleaned path leads to can be entered by its own cleaned
path. -/
theorem list_join (filled : root ≠ []) (entry : Path.EntryName name)
    (there : find tree true (Path.clean root) = .ok (.folder entries))
    (inside : Keyed.get? entries name = some (.folder others)) :
    list tree (Path.join root name) = .ok others := by
  obtain ⟨location, leads, found⟩ := find_eq_ok_iff.mp there
  obtain ⟨proper, follows⟩ := resolve_eq_ok_iff.mp leads
  have relative : Path.isAbsolute root = false := by
    rw [Bool.or_eq_false_iff, Path.isAbsolute_clean] at proper
    exact proper.2
  have isFolder : IsFolder tree location := ⟨entries, found⟩
  have child : tree.get? (location ++ [name]) = some (.folder others) := by
    rw [Node.get?_append, found, Option.bind_some, Node.get?, inside]
    rfl
  have arrives : advance tree location [name] = .arrived (.taken (location ++ [name])) := by
    rw [advance, if_neg entry.ne_here, if_neg entry.ne_above, child]
    rfl
  have further := follows.goOn (isFolder_top isFolder) isFolder (List.cons_ne_nil _ _) arrives
  have spelled : steps (Path.join root name) = Path.cleanNames root ++ [name] := by
    have filled' : ¬ root.isEmpty = true := by simpa using filled
    rw [Path.join, if_neg filled', steps_clean, Path.cleanNames_child filled entry]
    · simp
    · rw [Path.isAbsolute_append filled, relative]
  rw [follows_steps_clean_iff relative, ← spelled] at further
  have reached : find tree true (Path.join root name) = .ok (.folder others) := by
    apply find_eq_ok_iff.mpr
    refine ⟨_, resolve_eq_ok_iff.mpr ⟨?_, further⟩, child⟩
    rw [Bool.or_eq_false_iff, Path.isAbsolute_join_name filled]
    exact ⟨by simpa using Path.join_ne_nil filled, relative⟩
  rw [list, reached]

end Child

/-- Steps of which some that stay in the folder are left out. -/
inductive Thinned : List Bytes → List Bytes → Prop where
  | nil : Thinned [] []
  | keep (name : Bytes) {names others : List Bytes} (later : Thinned names others) :
      Thinned (name :: names) (name :: others)
  | leave {names others : List Bytes} (later : Thinned names others) :
      Thinned (Path.here :: names) others

namespace Thinned

variable {names others : List Bytes}

theorem append_left (front : List Bytes) (thinned : Thinned names others) :
    Thinned (front ++ names) (front ++ others) := by
  induction front with
  | nil => exact thinned
  | cons name front ih => exact .keep name ih

theorem eq_nil (thinned : Thinned [] others) : others = [] := by
  cases thinned
  rfl

/-- The fewer steps halt where the steps halt. -/
theorem advance_halts (thinned : Thinned names others) (folder : Location) :
    (∀ location, advance tree folder names = .arrived (.taken location) →
      advance tree folder others = .arrived (.taken location)) ∧
    ∀ parent name target rest, advance tree folder names = .link parent name target rest →
      ∃ fewer, Thinned rest fewer ∧
        advance tree folder others = .link parent name target fewer := by
  induction thinned generalizing folder with
  | nil =>
      constructor
      · exact fun _ halt => halt
      · intro parent name target rest halt
        cases halt
  | leave later ih =>
      rw [advance, if_pos rfl]
      exact ih folder
  | @keep name names others later ih =>
      rw [advance, advance]
      split
      · exact ih folder
      split
      · exact ih folder.dropLast
      cases tree.get? (folder ++ [name]) with
      | none =>
          constructor
          · intro location halt
            dsimp only at halt
            split at halt <;> cases halt
          · intro parent link target rest halt
            dsimp only at halt
            split at halt <;> cases halt
      | some node =>
          cases node with
          | folder entries => exact ih (folder ++ [name])
          | link target =>
              constructor
              · intro location halt
                cases halt
              · intro parent link other rest halt
                cases halt
                exact ⟨others, later, rfl⟩
          | file content =>
              constructor
              · intro location halt
                dsimp only at halt
                split at halt
                · next ends =>
                    cases List.isEmpty_iff.mp ends
                    rw [later.eq_nil]
                    exact halt
                · cases halt
              · intro parent link target rest halt
                dsimp only at halt
                split at halt <;> cases halt

theorem follows (thinned : Thinned names others) {links : Nat} {folder location : Location}
    (leads : Follows tree true links folder names (.taken location)) :
    Follows tree true links folder others (.taken location) := by
  generalize spelled : Spot.taken location = spot at leads
  induction leads generalizing others with
  | @arrives links folder names spot halt =>
      subst spelled
      exact .arrives ((thinned.advance_halts folder).1 location halt)
  | @stops links folder parent names rest name target halt ends =>
      rw [Bool.not_true, Bool.and_false] at ends
      cases ends
  | @through links folder parent names rest name target spot halt goesOn relative further ih =>
      obtain ⟨fewer, thinnedRest, haltsToo⟩ :=
        (thinned.advance_halts folder).2 parent name target rest halt
      exact .through haltsToo (Bool.and_false _) relative
        (ih (thinnedRest.append_left (steps target)) spelled)

/-- Without steps up, cleaning only leaves out steps that stay in the folder. -/
theorem foldl_push (staysDown : Path.above ∉ names) (cleaned : List Bytes) :
    ∃ fewer, Thinned names fewer ∧
      names.foldl (Path.push false) cleaned = fewer.reverse ++ cleaned := by
  induction names generalizing cleaned with
  | nil => exact ⟨[], .nil, rfl⟩
  | cons name names ih =>
      obtain ⟨notAbove, later⟩ := not_or.mp (mt List.mem_cons.mpr staysDown)
      rw [List.foldl_cons]
      by_cases isHere : name = Path.here
      · subst isHere
        rw [Path.push_here]
        obtain ⟨fewer, thinned, cut⟩ := ih later cleaned
        exact ⟨fewer, .leave thinned, cut⟩
      · rw [Path.push_of_ne isHere (Ne.symm notAbove)]
        obtain ⟨fewer, thinned, cut⟩ := ih later (name :: cleaned)
        exact ⟨name :: fewer, .keep name thinned, by simp [cut]⟩

end Thinned

/-- A path without steps up that leads to a folder leads there cleaned as well. -/
theorem find_clean {path : Bytes} {entries : List (Bytes × Node)}
    (staysDown : Path.above ∉ Path.names path)
    (there : inspect tree path = .ok (.folder entries)) :
    find tree true (Path.clean path) = .ok (.folder entries) := by
  obtain ⟨location, leads, found⟩ := find_eq_ok_iff.mp (find_of_inspect there)
  obtain ⟨proper, follows⟩ := resolve_eq_ok_iff.mp leads
  have relative : Path.isAbsolute path = false := (Bool.or_eq_false_iff.mp proper).2
  have ends : ∀ target, tree.get? location ≠ some (.link target) := by simp [found]
  have throughLinks := follows.of_unlinked (isFolder_top ⟨entries, found⟩) ends
  have noneUp : Path.above ∉ steps path := by
    rw [steps, List.mem_append]
    rintro (among | last)
    · exact staysDown among
    · split at last
      · cases List.mem_singleton.mp last
      · cases last
  obtain ⟨fewer, thinned, cut⟩ := Thinned.foldl_push noneUp []
  rw [foldl_push_steps relative, List.append_nil, List.reverse_inj] at cut
  subst cut
  have cleaned := thinned.follows throughLinks
  rw [← List.append_nil (Path.cleanNames path), ← follows_steps_clean_iff relative,
    List.append_nil] at cleaned
  refine find_eq_ok_iff.mpr ⟨location, resolve_eq_ok_iff.mpr ⟨?_, cleaned⟩, found⟩
  rw [Bool.or_eq_false_iff, Path.isAbsolute_clean]
  exact ⟨by simpa using Path.clean_ne_nil path, relative⟩

end Files

end Stencil
