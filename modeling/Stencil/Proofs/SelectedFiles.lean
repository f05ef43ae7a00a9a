import Stencil.Proofs.CleanedSteps
import Stencil.Proofs.LocatedFiles

/-!
# The files a scan selects

A scan of a folder finds each file below it once, sorted by path, that no hidden folder
lies above and that has one of the extensions asked for.  The folders in the root are
entered by their cleaned paths (`entered`), so this is said of the root with what is
found there.  When the cleaned path of the root leads to the root, which it does if it
has no step up, that is the root itself.
-/

namespace Stencil.Scan

open Stencil.Files (Location Node)
open Stencil.Files.Node (filesFrom)

/-- The name of a folder that is left alone. -/
def Hidden (name : Bytes) : Prop :=
  1 < name.length ∧ name.head? = some (byte '.') ∧ name ≠ Path.above

instance decidableHidden (name : Bytes) : Decidable (Hidden name) :=
  inferInstanceAs (Decidable (_ ∧ _ ∧ _))

/-- A path is asked for if there are only blank extensions or it has one of the others. -/
def Wanted (given : List Bytes) (path : Bytes) : Prop :=
  (∀ extension ∈ given, Bytes.trim extension = []) ∨
    ∃ extension ∈ given, Bytes.trim extension ≠ [] ∧
      Path.extension path = Path.dotted (Bytes.trim extension)

theorem isHidden_iff {name : Bytes} : isHidden name = true ↔ Hidden name := by
  simp [isHidden, Hidden, and_assoc]

theorem mem_extensions_iff {given : List Bytes} {dotted : Bytes} :
    dotted ∈ extensions given ↔
      ∃ extension ∈ given, Bytes.trim extension ≠ [] ∧
        dotted = Path.dotted (Bytes.trim extension) := by
  simp only [extensions, List.mem_filterMap, List.mem_map, exists_exists_and_eq_and]
  refine exists_congr fun extension => and_congr_right fun _ => ?_
  cases Bytes.trim extension with
  | nil => simp
  | cons first rest => simp [eq_comm]

theorem isTarget_extensions_iff {given : List Bytes} {path : Bytes} :
    isTarget (extensions given) path = true ↔ Wanted given path := by
  have none : (extensions given).isEmpty = true ↔
      ∀ extension ∈ given, Bytes.trim extension = [] := by
    rw [List.isEmpty_iff, List.eq_nil_iff_forall_not_mem]
    simp only [mem_extensions_iff]
    grind
  rw [isTarget, Bool.or_eq_true, none, List.contains_iff_mem, mem_extensions_iff]
  rfl

section Listing

variable {extensions : List Bytes} {folder name : Bytes}

/-- Whether a scan of a folder takes the file at a location in it. -/
def takes (extensions : List Bytes) (folder : Bytes) (file : Location × Bytes) : Bool :=
  file.1.dropLast.all (fun name => !isHidden name) &&
    isTarget extensions (Path.within folder file.1)

/-- A file under the path that its location has from a folder. -/
def foundAt (folder : Bytes) (file : Location × Bytes) : Found :=
  ⟨Path.within folder file.1, file.2.length⟩

/-- The files that a scan of a folder takes, as it gives them. -/
def taken (extensions : List Bytes) (folder : Bytes) (files : List (Location × Bytes)) :
    List Found :=
  (files.filter (takes extensions folder)).map (foundAt folder)

theorem taken_append (files others : List (Location × Bytes)) :
    taken extensions folder (files ++ others) =
      taken extensions folder files ++ taken extensions folder others := by
  rw [taken, List.filter_append, List.map_append]
  rfl

/-- What a scan takes of a folder's own folder is what a scan of that would take, or
nothing if it is hidden. -/
theorem taken_below (filled : folder ≠ []) (isName : Path.EntryName name)
    {files : List (Location × Bytes)}
    (proper : ∀ file ∈ files, file.1 ≠ [] ∧ ∀ part ∈ file.1, Path.EntryName part) :
    taken extensions folder (files.map fun file => (name :: file.1, file.2)) =
      if isHidden name then [] else taken extensions (Path.join folder name) files := by
  have spelled : ∀ file ∈ files,
      Path.within folder (name :: file.1) = Path.within (Path.join folder name) file.1 := by
    intro file member
    exact Path.within_cons filled (List.forall_mem_cons.mpr ⟨isName, (proper file member).2⟩)
  have same : ∀ file ∈ files,
      (takes extensions folder ∘ fun file => (name :: file.1, file.2)) file =
        (!isHidden name && takes extensions (Path.join folder name) file) := by
    intro file member
    rw [Function.comp_apply, takes, takes, spelled file member,
      List.dropLast_cons_of_ne_nil (proper file member).1, List.all_cons, Bool.and_assoc]
  rw [taken, List.filter_map, List.map_map, List.filter_congr same]
  cases isHidden name with
  | true => simp
  | false =>
      simp only [Bool.not_false, Bool.true_and, Bool.false_eq_true, if_false]
      apply List.map_congr_left
      intro file member
      rw [Function.comp_apply, foundAt, spelled file (List.mem_filter.mp member).1]
      rfl

theorem below_of_atNode {entries : List (Bytes × Node)}
    (each : ∀ entry ∈ entries, atNode extensions entry.1 (Path.join folder entry.1) entry.2 =
      taken extensions folder
        ((filesFrom [] entry.2).map fun file => (entry.1 :: file.1, file.2))) :
    below extensions folder entries =
      taken extensions folder (filesFrom [] (.folder entries)) := by
  induction entries with
  | nil => rfl
  | cons entry entries ih =>
      obtain ⟨first, later⟩ := List.forall_mem_cons.mp each
      rw [below, first, ih later, Node.filesFrom_folder_cons, taken_append]

theorem atNode_eq_taken (filled : folder ≠ []) (isName : Path.EntryName name) {node : Node}
    (proper : node.Proper) :
    atNode extensions name (Path.join folder name) node =
      taken extensions folder
        ((filesFrom [] node).map fun file => (name :: file.1, file.2)) := by
  induction node using Node.induction_entries generalizing folder name with
  | file content =>
      rw [atNode]
      change _ = taken extensions folder [([name], content)]
      have target : takes extensions folder ([name], content) =
          isTarget extensions (Path.join folder name) := rfl
      rw [taken, List.filter_singleton, target]
      cases isTarget extensions (Path.join folder name) <;> rfl
  | link target =>
      rw [atNode]
      rfl
  | folder entries ih =>
      have named := Node.proper_folder_iff.mp proper
      rw [atNode, taken_below filled isName]
      · congr 1
        apply below_of_atNode
        intro entry member
        obtain ⟨isEntry, entryProper⟩ := named entry member
        exact ih entry member (Path.join_ne_nil filled) isEntry entryProper
      · intro file member
        refine ⟨?_, Node.entryName_of_mem_filesFrom proper member⟩
        obtain ⟨entry, -, rest, spelled, -⟩ := Node.mem_filesFrom_folder member
        rw [spelled]
        exact List.cons_ne_nil _ _

theorem below_eq_taken (filled : folder ≠ []) {entries : List (Bytes × Node)}
    (proper : (Node.folder entries).Proper) :
    below extensions folder entries =
      taken extensions folder (filesFrom [] (.folder entries)) := by
  apply below_of_atNode
  intro entry member
  obtain ⟨isEntry, entryProper⟩ := Node.proper_folder_iff.mp proper entry member
  exact atNode_eq_taken filled isEntry entryProper

end Listing

/-- A file in a folder that a scan of the folder has to find. -/
structure Selected (given : List Bytes) (root : Bytes) (folder : Node) (names : Location)
    (content : Bytes) : Prop where
  leads : folder.get? names = some (.file content)
  shown : ∀ name ∈ names.dropLast, ¬ Hidden name
  wanted : Wanted given (Path.within root names)

/-- What was found are the selected files of a folder, each of them once, in the order of
their paths. -/
def Selects (given : List Bytes) (root : Bytes) (folder : Node) (found : List Found) : Prop :=
  ∃ files : List (Location × Bytes), found = files.map (foundAt root) ∧
    files.Pairwise (fun left right => Path.within root left.1 < Path.within root right.1) ∧
    ∀ names content, (names, content) ∈ files ↔ Selected given root folder names content

section Sorted

variable {given : List Bytes} {root : Bytes} {folder : Node}

theorem mem_filter_takes_iff (distinct : folder.Distinct) {names : Location} {content : Bytes} :
    (names, content) ∈ (filesFrom [] folder).filter (takes (extensions given) root) ↔
      Selected given root folder names content := by
  rw [List.mem_filter, Node.mem_filesFrom_iff distinct, takes, Bool.and_eq_true,
    List.all_eq_true, isTarget_extensions_iff]
  simp only [Bool.not_eq_true', Bool.eq_false_iff, ne_eq, isHidden_iff]
  constructor
  · rintro ⟨leads, shown, wanted⟩
    exact ⟨leads, shown, wanted⟩
  · rintro ⟨leads, shown, wanted⟩
    exact ⟨leads, shown, wanted⟩

theorem within_pairwise_ne (filled : root ≠ []) (proper : folder.Proper)
    (distinct : folder.Distinct) :
    (filesFrom [] folder).Pairwise fun left right =>
      Path.within root left.1 ≠ Path.within root right.1 := by
  have apart := List.pairwise_map.mp (Node.nodup_filesFrom distinct)
  refine apart.imp_of_mem ?_
  intro left right member otherMember differ same
  exact differ (Path.within_inj filled (Node.entryName_of_mem_filesFrom proper member)
    (Node.entryName_of_mem_filesFrom proper otherMember) same)

theorem selects_taken (filled : root ≠ []) (proper : folder.Proper)
    (distinct : folder.Distinct) :
    Selects given root folder
      ((taken (extensions given) root (filesFrom [] folder)).mergeSort
        fun left right => Bytes.le left.path right.path) := by
  let files := (filesFrom [] folder).filter (takes (extensions given) root)
  let order := fun left right : Location × Bytes =>
    Bytes.le (Path.within root left.1) (Path.within root right.1)
  have sameFiles := List.mergeSort_perm files order
  have mapped : (files.mergeSort order).map (foundAt root) =
      (files.map (foundAt root)).mergeSort fun left right => Bytes.le left.path right.path :=
    List.map_mergeSort fun _ _ _ _ => rfl
  refine ⟨files.mergeSort order, mapped.symm, ?_, ?_⟩
  · have sorted : (files.mergeSort order).Pairwise fun left right => order left right = true := by
      apply List.pairwise_mergeSort
      · intro first second third
        simp only [order, Bytes.le, decide_eq_true_eq]
        exact List.le_trans
      · intro left right
        simp only [order, Bytes.le, Bool.or_eq_true, decide_eq_true_eq]
        exact List.le_total _ _
    have apart := (within_pairwise_ne filled proper distinct).filter
      (takes (extensions given) root)
    have sortedApart := (sameFiles.pairwise_iff fun differ => differ.symm).mpr apart
    refine List.Pairwise.imp₂ ?_ sorted sortedApart
    intro left right atMost differ
    exact (List.le_iff_lt_or_eq.mp (of_decide_eq_true atMost)).resolve_right differ
  · intro names content
    rw [sameFiles.mem_iff]
    exact mem_filter_takes_iff distinct

end Sorted

section Root

variable {tree : Node} {extensions given : List Bytes} {root : Bytes}
  {entries seen : List (Bytes × Node)}

/-- An entry of a root, with what is found there when a folder is entered by its path. -/
def enter (tree : Node) (root : Bytes) (entry : Bytes × Node) : Except Failure (Bytes × Node) :=
  if entry.2.isFolder && !isHidden entry.1 then do
    return (entry.1, .folder (← Files.list tree (Path.join root entry.1)))
  else
    .ok entry

/-- The entries of a root as a scan of it sees them. -/
def entered (tree : Node) (root : Bytes) (entries : List (Bytes × Node)) :
    Except Failure (List (Bytes × Node)) :=
  entries.mapM (enter tree root)

theorem atEntry_eq (entry : Bytes × Node) :
    atEntry tree extensions root entry.1 entry.2 = (do
      let seen ← enter tree root entry
      return atNode extensions seen.1 (Path.join root seen.1) seen.2) := by
  rw [atEntry, enter]
  split
  · next isShown =>
      have shown : isHidden entry.1 = false := by simpa using (Bool.and_eq_true_iff.mp isShown).2
      cases Files.list tree (Path.join root entry.1) with
      | error failure => rfl
      | ok others =>
          change Except.ok _ = Except.ok (atNode extensions entry.1 _ (.folder others))
          rw [atNode, shown]
          rfl
  · rfl

theorem mapM_atEntry (entries : List (Bytes × Node)) :
    (entries.mapM fun entry => atEntry tree extensions root entry.1 entry.2) = (do
      let seen ← entered tree root entries
      return seen.map fun entry =>
        atNode extensions entry.1 (Path.join root entry.1) entry.2) := by
  induction entries with
  | nil => rfl
  | cons entry entries ih =>
      rw [List.mapM_cons, ih, atEntry_eq, entered, entered, List.mapM_cons]
      cases enter tree root entry with
      | error failure => rfl
      | ok first => cases entries.mapM (enter tree root) <;> rfl

theorem below_eq_flatten (folder : Bytes) (entries : List (Bytes × Node)) :
    below extensions folder entries =
      (entries.map fun entry =>
        atNode extensions entry.1 (Path.join folder entry.1) entry.2).flatten := by
  induction entries with
  | nil => rfl
  | cons entry entries ih => rw [below, ih, List.map_cons, List.flatten_cons]

/-- A scan of a folder lists and sorts what is below the entries it sees. -/
theorem atRoot_folder :
    atRoot tree extensions root (.folder entries) = (do
      let seen ← entered tree root entries
      return (below extensions root seen).mergeSort
        fun left right => Bytes.le left.path right.path) := by
  rw [atRoot, mapM_atEntry]
  cases entered tree root entries with
  | error failure => rfl
  | ok seen =>
      exact congrArg (fun files => Except.ok (files.mergeSort
        fun left right => Bytes.le left.path right.path)) (below_eq_flatten root seen).symm

/-- An entry keeps its name when it is entered, and what is found is in the tree. -/
theorem enter_ok {entry other : Bytes × Node} (ran : enter tree root entry = .ok other) :
    other.1 = entry.1 ∧ (other.2 = entry.2 ∨ ∃ location, tree.get? location = some other.2) := by
  rw [enter] at ran
  split at ran
  · obtain ⟨others, listed, rfl⟩ := of_bind_pure ran
    obtain ⟨location, -, found⟩ := Files.find_eq_ok_iff.mp (Files.find_of_list listed)
    exact ⟨rfl, .inr ⟨location, found⟩⟩
  · cases ran
    exact ⟨rfl, .inl rfl⟩

theorem names_entered (ran : entered tree root entries = .ok seen) :
    seen.map (·.1) = entries.map (·.1) := by
  rw [entered] at ran
  induction entries generalizing seen with
  | nil =>
      cases ran
      rfl
  | cons entry entries ih =>
      obtain ⟨other, later, first, others, rfl⟩ := of_mapM_cons ran
      rw [List.map_cons, List.map_cons, (enter_ok first).1, ih others]

theorem proper_entered (treeProper : tree.Proper) (proper : (Node.folder entries).Proper)
    (ran : entered tree root entries = .ok seen) : (Node.folder seen).Proper := by
  rw [Node.proper_folder_iff] at proper ⊢
  intro other member
  obtain ⟨entry, among, enters⟩ := (of_mapM_ok ran).1 other member
  obtain ⟨isName, entryProper⟩ := proper entry among
  obtain ⟨sameName, same | ⟨location, found⟩⟩ := enter_ok enters
  · rw [sameName, same]
    exact ⟨isName, entryProper⟩
  · rw [sameName]
    exact ⟨isName, treeProper.of_get? found⟩

theorem distinct_entered (treeDistinct : tree.Distinct)
    (distinct : (Node.folder entries).Distinct) (ran : entered tree root entries = .ok seen) :
    (Node.folder seen).Distinct := by
  rw [Node.distinct_folder_iff] at distinct ⊢
  rw [names_entered ran]
  refine ⟨distinct.1, ?_⟩
  intro other member
  obtain ⟨entry, among, enters⟩ := (of_mapM_ok ran).1 other member
  obtain ⟨-, same | ⟨location, found⟩⟩ := enter_ok enters
  · rw [same]
    exact distinct.2 entry among
  · exact treeDistinct.of_get? found

/-- If the cleaned path of a root leads to it, its folders are entered as they are. -/
theorem entered_eq_self (filled : root ≠ []) (proper : (Node.folder entries).Proper)
    (distinct : (Node.folder entries).Distinct)
    (there : Files.find tree true (Path.clean root) = .ok (.folder entries)) :
    entered tree root entries = .ok entries := by
  have each : ∀ entry ∈ entries, enter tree root entry = .ok entry := by
    rintro ⟨name, node⟩ member
    obtain ⟨isName, -⟩ := Node.proper_folder_iff.mp proper _ member
    have given := Node.get?_of_mem (Node.distinct_folder_iff.mp distinct).1 member
    cases node with
    | file content => rfl
    | link target => rfl
    | folder others =>
        rw [enter, Files.list_join filled isName there given]
        split <;> rfl
  rw [entered]
  clear there proper distinct
  induction entries with
  | nil => rfl
  | cons entry entries ih =>
      obtain ⟨first, later⟩ := List.forall_mem_cons.mp each
      rw [List.mapM_cons, first, ih later]
      rfl

/-- A root that is a file is found whatever its extension.  In a folder, a scan selects
the files exactly, sorted and each once, if the folder's cleaned path leads to it; a path
without steps up is of that kind.  For other roots it selects the files of what the
cleaned paths of its folders lead to, and it fails if one of them cannot be listed. -/
theorem scanRoot_selects {node : Node} (proper : tree.Proper) (distinct : tree.Distinct)
    (there : Files.inspect tree root = .ok node) :
    (∀ content, node = .file content →
      scanRoot tree given root = .ok [⟨root, content.length⟩]) ∧
    ∀ entries, node = .folder entries →
      (Path.above ∉ Path.names root ∨ Files.find tree true (Path.clean root) = .ok node →
        ∃ found, scanRoot tree given root = .ok found ∧ Selects given root node found) ∧
      (∀ seen, entered tree root entries = .ok seen →
        ∃ found, scanRoot tree given root = .ok found ∧
          Selects given root (.folder seen) found) ∧
      ∀ failure, entered tree root entries = .error failure →
        scanRoot tree given root = .error failure := by
  obtain ⟨location, -, found⟩ := Files.find_eq_ok_iff.mp (Files.find_of_inspect there)
  have filled := Files.inspect_ne_nil there
  have nodeProper := proper.of_get? found
  have nodeDistinct := distinct.of_get? found
  rw [scanRoot_of_inspect there]
  constructor
  · rintro content rfl
    rfl
  · rintro entries rfl
    have selects : ∀ seen, entered tree root entries = .ok seen →
        ∃ found, atRoot tree (Scan.extensions given) root (.folder entries) = .ok found ∧
          Selects given root (.folder seen) found := by
      intro seen ran
      have seenProper := proper_entered proper nodeProper ran
      have seenDistinct := distinct_entered distinct nodeDistinct ran
      rw [atRoot_folder, ran]
      refine ⟨_, rfl, ?_⟩
      rw [below_eq_taken filled seenProper]
      exact selects_taken filled seenProper seenDistinct
    refine ⟨?_, selects, ?_⟩
    · intro leadsBack
      apply selects
      rcases leadsBack with staysDown | leadsBack
      · exact entered_eq_self filled nodeProper nodeDistinct (Files.find_clean staysDown there)
      · exact entered_eq_self filled nodeProper nodeDistinct leadsBack
    · intro failure ran
      rw [atRoot_folder, ran]
      rfl

/-- A hidden folder, a file beside a folder whose name begins its own, and a file with
another extension. -/
def drawer : List (Bytes × Node) :=
  [(bytes ".git", .folder [(bytes "c.txt", .file (bytes "no"))]),
    (bytes "a", .folder [(bytes "b.txt", .file (bytes "yo"))]),
    (bytes "a.txt", .file (bytes "hi")), (bytes "m.md", .file (bytes "x"))]

def cabinet : Node :=
  .folder [(bytes "src", .folder drawer)]

theorem proper_cabinet : cabinet.Proper := by
  simp only [cabinet, drawer, Node.Proper, Node.ProperEntries, and_true]
  decide

theorem distinct_cabinet : cabinet.Distinct := by
  simp only [cabinet, drawer, Node.Distinct, Node.DistinctEntries, and_true]
  decide

theorem scanRoot_selects_cabinet :
    cabinet.Proper ∧ cabinet.Distinct ∧
      Files.inspect cabinet (bytes "./src/") = .ok (.folder drawer) ∧
      ∃ found, scanRoot cabinet [bytes " txt", bytes " "] (bytes "./src/") = .ok found ∧
        Selects [bytes " txt", bytes " "] (bytes "./src/") (.folder drawer) found ∧
        ⟨bytes "src/a/b.txt", 2⟩ ∈ found ∧ ⟨bytes "src/m.md", 1⟩ ∉ found ∧
        ¬ Selected [bytes " txt", bytes " "] (bytes "./src/") (.folder drawer)
          [bytes ".git", bytes "c.txt"] (bytes "no") := by
  have there : Files.inspect cabinet (bytes "./src/") = .ok (.folder drawer) := rfl
  obtain ⟨selects, -⟩ := (scanRoot_selects proper_cabinet distinct_cabinet there).2 _ rfl
  obtain ⟨found, scanned, files, rfl, sorted, each⟩ := selects (.inl (by decide))
  refine ⟨proper_cabinet, distinct_cabinet, there, _, scanned, ⟨files, rfl, sorted, each⟩,
    ?_, ?_, ?_⟩
  · have nested : ([bytes "a", bytes "b.txt"], bytes "yo") ∈ files :=
      (each _ _).mpr ⟨rfl, by decide, .inr ⟨bytes " txt", by decide +kernel⟩⟩
    exact List.mem_map.mpr ⟨_, nested, rfl⟩
  · intro listed
    obtain ⟨⟨names, content⟩, member, same⟩ := List.mem_map.mp listed
    have spelled : Path.within (bytes "./src/") names = bytes "src/m.md" := congrArg Found.path same
    have wanted := ((each _ _).mp member).wanted
    rw [spelled] at wanted
    revert wanted
    unfold Wanted
    decide +kernel
  · intro selected
    exact selected.shown (bytes ".git") (by decide) (by decide)

/-- A folder with a file in it. -/
def hall : List (Bytes × Node) :=
  [(bytes "sub", .folder [(bytes "f.txt", .file (bytes "hi"))])]

/-- The folder beside one that a link leads to, and another of its name at the top. -/
def crossing : Node :=
  .folder [(bytes "d", .folder [(bytes "e", .folder []), (bytes "x", .folder hall)]),
    (bytes "lnd", .link (bytes "d/e")),
    (bytes "x", .folder [(bytes "sub", .folder [(bytes "other.txt", .file (bytes "no"))])])]

/-- A root that goes up behind a link: the file in it is not found, and another is. -/
theorem scanRoot_leaves_root :
    Files.inspect crossing (bytes "lnd/../x") = .ok (.folder hall) ∧
      scanRoot crossing [] (bytes "lnd/../x") = .ok [⟨bytes "x/sub/other.txt", 2⟩] ∧
      ¬ Selects [] (bytes "lnd/../x") (.folder hall) [⟨bytes "x/sub/other.txt", 2⟩] := by
  have there : Files.inspect crossing (bytes "lnd/../x") = .ok (.folder hall) := rfl
  refine ⟨there, ?_, ?_⟩
  · rw [scanRoot_of_inspect there]
    have listed : below (extensions []) (Path.join (bytes "lnd/../x") (bytes "sub"))
        [(bytes "other.txt", .file (bytes "no"))] = [⟨bytes "x/sub/other.txt", 2⟩] := by
      simp only [below, atNode]
      decide
    have entered : (hall.mapM fun entry =>
        atEntry crossing (extensions []) (bytes "lnd/../x") entry.1 entry.2) =
          .ok [[⟨bytes "x/sub/other.txt", 2⟩]] := by
      rw [← listed]
      rfl
    exact atRoot_of_sorted entered (by decide)
  · rintro ⟨files, given, -, each⟩
    have selected : ([bytes "sub", bytes "f.txt"], bytes "hi") ∈ files :=
      (each _ _).mpr ⟨rfl, by decide, .inl nofun⟩
    have listed := List.mem_map_of_mem (f := foundAt (bytes "lnd/../x")) selected
    rw [← given] at listed
    revert listed
    decide

end Root

end Stencil.Scan
