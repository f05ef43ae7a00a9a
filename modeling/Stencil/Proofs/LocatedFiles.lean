import Mathlib.Data.List.Nodup
import Stencil.Proofs.WatchedFolders

/-!
# The files of a tree by location

`filesFrom` lists the files of a tree with the names that lead to them.  In a tree whose
folders give each name once, it lists every file once, and the names lead to the file.
-/

namespace Stencil.Files.Node

/-- Induction on a tree, with a hypothesis for everything that is in a folder. -/
theorem induction_entries {motive : Node → Prop} (file : ∀ content, motive (.file content))
    (link : ∀ target, motive (.link target))
    (folder : ∀ entries, (∀ entry ∈ entries, motive entry.2) → motive (.folder entries))
    (node : Node) : motive node := by
  match node with
  | .file content => exact file content
  | .link target => exact link target
  | .folder entries =>
      apply folder entries
      intro entry member
      exact induction_entries file link folder entry.2
termination_by sizeOf node
decreasing_by
  have smaller := List.sizeOf_lt_of_mem member
  obtain ⟨name, child⟩ := entry
  simp only [Prod.mk.sizeOf_spec, Node.folder.sizeOf_spec] at smaller ⊢
  omega

mutual

/-- Every folder of a tree gives a name once. -/
def Distinct : Node → Prop
  | .folder entries => (entries.map (·.1)).Nodup ∧ DistinctEntries entries
  | _ => True

/-- `Distinct` for the entries of a folder. -/
def DistinctEntries : List (Bytes × Node) → Prop
  | [] => True
  | (_, node) :: entries => node.Distinct ∧ DistinctEntries entries

end

section Entries

variable {name : Bytes} {node : Node} {entries : List (Bytes × Node)}

theorem proper_folder_iff :
    (folder entries).Proper ↔ ∀ entry ∈ entries, Path.EntryName entry.1 ∧ entry.2.Proper := by
  induction entries with
  | nil => simp [Proper, ProperEntries]
  | cons entry entries ih =>
      rw [List.forall_mem_cons, ← ih, and_assoc]
      rfl

theorem distinct_folder_iff : (folder entries).Distinct ↔
    (entries.map (·.1)).Nodup ∧ ∀ entry ∈ entries, entry.2.Distinct := by
  rw [Distinct]
  apply and_congr Iff.rfl
  induction entries with
  | nil => simp [DistinctEntries]
  | cons entry entries ih => rw [List.forall_mem_cons, ← ih, DistinctEntries]

theorem distinct_folder_cons : (folder ((name, node) :: entries)).Distinct ↔
    name ∉ entries.map (·.1) ∧ node.Distinct ∧ (folder entries).Distinct := by
  simp only [Distinct, DistinctEntries, List.map_cons, List.nodup_cons]
  tauto

theorem mem_of_get? (found : Keyed.get? entries name = some node) : (name, node) ∈ entries := by
  obtain ⟨front, back, rfl, -⟩ := List.lookup_eq_some_iff.mp found
  simp

/-- A folder that gives each name once gives every entry under its name. -/
theorem get?_of_mem (once : (entries.map (·.1)).Nodup) (member : (name, node) ∈ entries) :
    Keyed.get? entries name = some node := by
  obtain ⟨front, back, rfl⟩ := List.append_of_mem member
  refine List.lookup_eq_some_iff.mpr ⟨front, back, rfl, ?_⟩
  intro entry among
  rw [List.map_append, List.nodup_append] at once
  have differ := once.2.2 _ (List.mem_map_of_mem among) name (by simp)
  exact bne_iff_ne.mpr (Ne.symm differ)

theorem Distinct.of_get? {tree node : Node} (distinct : tree.Distinct) {location : Location}
    (found : tree.get? location = some node) : node.Distinct := by
  induction location generalizing tree with
  | nil =>
      rw [get?, Option.some.injEq] at found
      rw [← found]
      exact distinct
  | cons name location ih =>
      obtain ⟨entries, child, rfl, inside, below⟩ := get?_cons_eq_some found
      exact ih ((distinct_folder_iff.mp distinct).2 _ (mem_of_get? inside)) below

theorem get?_folder_cons (first : Bytes) (names : Location) :
    (folder ((name, node) :: entries)).get? (first :: names) =
      if first = name then node.get? names else (folder entries).get? (first :: names) := by
  rw [get?, Keyed.get?, List.lookup_cons]
  by_cases same : first = name
  · simp [same]
  · rw [beq_eq_false_iff_ne.mpr same, if_neg same]
    rfl

theorem filesFrom_eq_map (location : Location) (node : Node) :
    filesFrom location node =
      (filesFrom [] node).map fun file => (location ++ file.1, file.2) := by
  induction node using induction_entries generalizing location with
  | file content => simp [filesFrom]
  | link target => simp [filesFrom]
  | folder entries ih =>
      rw [filesFrom, filesFrom]
      induction entries with
      | nil => simp [filesOfEntries]
      | cons entry entries others =>
          obtain ⟨name, node⟩ := entry
          have first := ih (name, node) List.mem_cons_self
          have later := others fun entry member => ih entry (List.mem_cons_of_mem _ member)
          rw [filesOfEntries, filesOfEntries, later, first (location ++ [name]),
            first ([] ++ [name])]
          simp [Function.comp_def]

/-- The files of a folder are those of its first entry and those of the others. -/
theorem filesFrom_folder_cons :
    filesFrom [] (folder ((name, node) :: entries)) =
      (filesFrom [] node).map (fun file => (name :: file.1, file.2)) ++
        filesFrom [] (folder entries) := by
  rw [filesFrom, filesOfEntries, filesFrom_eq_map]
  rfl

end Entries

section Members

variable {names : Location} {content : Bytes} {entries : List (Bytes × Node)}

theorem mem_filesFrom_folder (member : (names, content) ∈ filesFrom [] (folder entries)) :
    ∃ entry ∈ entries, ∃ rest, names = entry.1 :: rest ∧
      (rest, content) ∈ filesFrom [] entry.2 := by
  induction entries with
  | nil => cases member
  | cons entry entries ih =>
      obtain ⟨name, node⟩ := entry
      rw [filesFrom_folder_cons] at member
      rcases List.mem_append.mp member with first | later
      · obtain ⟨⟨rest, _⟩, inside, same⟩ := List.mem_map.mp first
        cases same
        exact ⟨(name, node), List.mem_cons_self, rest, rfl, inside⟩
      · obtain ⟨entry, among, rest, spelled, inside⟩ := ih later
        exact ⟨entry, List.mem_cons_of_mem _ among, rest, spelled, inside⟩

theorem entryName_of_mem_filesFrom {node : Node} (proper : node.Proper)
    (member : (names, content) ∈ filesFrom [] node) : ∀ name ∈ names, Path.EntryName name := by
  induction node using induction_entries generalizing names with
  | file text =>
      cases List.mem_singleton.mp member
      simp
  | link target => cases member
  | folder entries ih =>
      obtain ⟨entry, among, rest, rfl, inside⟩ := mem_filesFrom_folder member
      obtain ⟨isName, childProper⟩ := proper_folder_iff.mp proper entry among
      exact List.forall_mem_cons.mpr ⟨isName, ih entry among childProper inside⟩

/-- The names of a listed file lead to it, and every file is listed. -/
theorem mem_filesFrom_iff {node : Node} (distinct : node.Distinct) :
    (names, content) ∈ filesFrom [] node ↔ node.get? names = some (.file content) := by
  induction node using induction_entries generalizing names with
  | file text =>
      cases names with
      | nil => simp [filesFrom, get?, eq_comm]
      | cons name names => simp [filesFrom, get?]
  | link target => cases names <;> simp [filesFrom, get?]
  | folder entries ih =>
      induction entries with
      | nil => cases names <;> simp [filesFrom, filesOfEntries, get?, Keyed.get?]
      | cons entry entries others =>
          obtain ⟨name, node⟩ := entry
          obtain ⟨fresh, nodeDistinct, later⟩ := distinct_folder_cons.mp distinct
          have first : ∀ {names : Location}, (names, content) ∈ filesFrom [] node ↔
              node.get? names = some (.file content) :=
            ih (name, node) List.mem_cons_self nodeDistinct
          have rest := others (fun entry member => ih entry (List.mem_cons_of_mem _ member)) later
          rw [filesFrom_folder_cons, List.mem_append]
          cases names with
          | nil => simpa [get?] using rest
          | cons head names =>
              rw [get?_folder_cons]
              by_cases same : head = name
              · subst same
                have absent : (head :: names, content) ∉ filesFrom [] (folder entries) := by
                  intro member
                  obtain ⟨entry, among, _, spelled, _⟩ := mem_filesFrom_folder member
                  cases spelled
                  exact fresh (List.mem_map.mpr ⟨entry, among, rfl⟩)
                simp [absent, first]
              · simp [same, Ne.symm same, rest]

theorem nodup_filesFrom {node : Node} (distinct : node.Distinct) :
    ((filesFrom [] node).map (·.1)).Nodup := by
  induction node using induction_entries with
  | file text => simp [filesFrom]
  | link target => simp [filesFrom]
  | folder entries ih =>
      induction entries with
      | nil => simp [filesFrom, filesOfEntries]
      | cons entry entries others =>
          obtain ⟨name, node⟩ := entry
          obtain ⟨fresh, nodeDistinct, later⟩ := distinct_folder_cons.mp distinct
          have first := ih (name, node) List.mem_cons_self nodeDistinct
          have rest := others (fun entry member => ih entry (List.mem_cons_of_mem _ member)) later
          rw [filesFrom_folder_cons, List.map_append, List.map_map]
          apply List.Nodup.append _ rest
          · intro names left right
            obtain ⟨file, _, rfl⟩ := List.mem_map.mp left
            obtain ⟨⟨_, content⟩, member, rfl⟩ := List.mem_map.mp right
            obtain ⟨entry, among, _, spelled, _⟩ := mem_filesFrom_folder member
            cases spelled
            exact fresh (List.mem_map.mpr ⟨entry, among, rfl⟩)
          · have mapped := first.map (List.cons_injective (a := name))
            rwa [List.map_map] at mapped

end Members

end Stencil.Files.Node
