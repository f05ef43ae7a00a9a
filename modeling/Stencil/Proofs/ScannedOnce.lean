import Mathlib.Data.List.Basic
import Mathlib.Data.List.Nodup
import Stencil.Proofs.CleanPath
import Stencil.Proofs.FileReplacement
import Stencil.Scan

/-!
# Finding a file once

What lies below a folder is found under a cleaned path, but a root that is a file is
found as it is spelled.  Paths are told apart as they are spelled, so a file is found
twice exactly when it is a root under one spelling and is found under another.  Without
links, cleaned paths that differ lead to different places.
-/

namespace Stencil

namespace Path

theorem clean_eq_of_cleanNames {path other : Bytes} (absolute : isAbsolute path = isAbsolute other)
    (names : cleanNames path = cleanNames other) : clean path = clean other := by
  rw [clean, clean, absolute, names]

theorem clean_clean (path : Bytes) : clean (clean path) = clean path :=
  clean_eq_of_cleanNames (isAbsolute_clean path) (cleanNames_clean path)

theorem clean_join {folder : Bytes} (filled : folder ≠ []) (name : Bytes) :
    clean (join folder name) = join folder name := by
  have filled' : ¬ folder.isEmpty = true := by simpa using filled
  rw [join, if_neg filled', clean_clean]

theorem push_here (absolute : Bool) (cleaned : List Bytes) : push absolute cleaned here = cleaned :=
  if_pos rfl

/-- The path stays below the folder it begins in. -/
def Inside (path : Bytes) : Prop :=
  above ∉ cleanNames path

/-- A path that went above where it began does not come back. -/
theorem push_stays_above {cleaned : List Bytes} (went : cleaned.getLast? = some above)
    (name : Bytes) : (push false cleaned name).getLast? = some above := by
  unfold push
  split
  · exact went
  split
  · cases cleaned with
    | nil => cases went
    | cons last rest =>
        dsimp only
        split
        · rw [List.getLast?_cons, went]
          rfl
        · next differ =>
            cases rest with
            | nil => exact absurd (Option.some.inj went) differ
            | cons next rest => exact went
  · rw [List.getLast?_cons, went]
    rfl

theorem foldl_push_stays_above {cleaned : List Bytes} (went : cleaned.getLast? = some above)
    (names : List Bytes) : above ∈ names.foldl (push false) cleaned := by
  induction names generalizing cleaned with
  | nil => exact List.mem_of_getLast? went
  | cons name names ih => exact ih (push_stays_above went name)

end Path

namespace Files

/-- There is no link in the tree. -/
def Node.Linkless (tree : Node) : Prop :=
  ∀ location target, tree.get? location ≠ some (.link target)

section Linkless

variable {tree : Node} {folder place : Location} {names : List Bytes}

theorem advance_meets_no_link (linkless : tree.Linkless) (folder : Location) (names : List Bytes)
    (stop : Location) (name target : Bytes) (rest : List Bytes) :
    advance tree folder names ≠ .link stop name target rest := by
  intro meets
  induction names generalizing folder with
  | nil => cases meets
  | cons next names ih =>
      rw [advance] at meets
      split at meets
      · exact ih folder meets
      split at meets
      · exact ih folder.dropLast meets
      split at meets
      · exact ih (folder ++ [next]) meets
      · next found => exact linkless _ _ found
      · split at meets <;> cases meets
      · split at meets <;> cases meets

/-- Taking steps cleans a path. -/
theorem advance_eq_cleaned (outside : Path.above ∉ folder)
    (arrives : advance tree folder names = .arrived (.taken place))
    (inside : Path.above ∉ names.foldl (Path.push false) folder.reverse) :
    place = (names.foldl (Path.push false) folder.reverse).reverse := by
  induction names generalizing folder with
  | nil =>
      cases arrives
      exact (List.reverse_reverse place).symm
  | cons name names ih =>
      rw [List.foldl_cons] at inside ⊢
      rw [advance] at arrives
      by_cases isHere : name = Path.here
      · subst isHere
        rw [if_pos rfl] at arrives
        rw [Path.push_here] at inside ⊢
        exact ih outside arrives inside
      rw [if_neg isHere] at arrives
      by_cases isAbove : name = Path.above
      · subst isAbove
        rw [if_pos rfl] at arrives
        obtain rfl | ⟨front, last, rfl⟩ := List.eq_nil_or_concat folder
        · exact absurd (Path.foldl_push_stays_above rfl names) inside
        · rw [List.concat_eq_append] at outside arrives inside ⊢
          have differ : ¬ last = Path.above := by
            rintro rfl
            exact outside (List.mem_append_right _ List.mem_cons_self)
          have back : Path.push false (front ++ [last]).reverse Path.above = front.reverse := by
            simp [Path.push, isHere, differ]
          rw [List.dropLast_concat] at arrives
          rw [back] at inside ⊢
          exact ih (fun member => outside (List.mem_append_left _ member)) arrives inside
      · have pushed : Path.push false folder.reverse name = (folder ++ [name]).reverse := by
          rw [Path.push_of_ne isHere isAbove, List.reverse_concat]
        rw [if_neg isAbove] at arrives
        rw [pushed] at inside ⊢
        have further : Path.above ∉ folder ++ [name] := by
          rw [List.mem_append, List.mem_singleton]
          rintro (member | isName)
          · exact outside member
          · exact isAbove isName.symm
        split at arrives
        · exact ih further arrives inside
        · cases arrives
        · split at arrives
          · next last =>
              cases arrives
              rw [List.isEmpty_iff.mp last, List.foldl_nil, List.reverse_reverse]
          · cases arrives
        · split at arrives <;> cases arrives

theorem foldl_push_steps {path : Bytes} (relative : Path.isAbsolute path = false) :
    (steps path).foldl (Path.push false) [] = (Path.cleanNames path).reverse := by
  rw [Path.cleanNames, List.reverse_reverse, relative, steps, List.foldl_append]
  split
  · exact Path.push_here false _
  · rfl

/-- Without links a path leads where its cleaned names lead. -/
theorem resolve_eq_cleanNames (linkless : tree.Linkless) {last : Bool} {path : Bytes}
    (leads : resolve tree last path = .ok (.taken place)) (inside : Path.Inside path) :
    place = Path.cleanNames path ∧ Path.isAbsolute path = false := by
  rw [resolve] at leads
  split at leads
  · cases leads
  next proper =>
    have relative : Path.isAbsolute path = false := by
      simp only [Bool.or_eq_true, not_or, Bool.not_eq_true] at proper
      exact proper.2
    have arrives : advance tree [] (steps path) = .arrived (.taken place) := by
      rw [follow] at leads
      split at leads
      · next spot arrived =>
          cases leads
          exact arrived
      · cases leads
      · next linked => exact absurd linked (advance_meets_no_link linkless _ _ _ _ _ _)
    have place := advance_eq_cleaned List.not_mem_nil arrives
    rw [List.reverse_nil, foldl_push_steps relative, List.mem_reverse,
      List.reverse_reverse] at place
    exact ⟨place inside, relative⟩

/-- Without links, paths that lead to one file are spelled alike when they are cleaned. -/
theorem SameFile.clean_eq (linkless : tree.Linkless) {left right : Bytes}
    (same : SameFile tree left right) (leftInside : Path.Inside left)
    (rightInside : Path.Inside right) : Path.clean left = Path.clean right := by
  obtain ⟨place, leftLeads, rightLeads⟩ := same
  obtain ⟨leftNames, leftRelative⟩ := resolve_eq_cleanNames linkless leftLeads leftInside
  obtain ⟨rightNames, rightRelative⟩ := resolve_eq_cleanNames linkless rightLeads rightInside
  apply Path.clean_eq_of_cleanNames
  · rw [leftRelative, rightRelative]
  · rw [← leftNames, ← rightNames]

end Linkless

/-- The path is that of a file, a link aside. -/
def NamesFile (tree : Node) (path : Bytes) : Prop :=
  ∃ content, inspect tree path = .ok (.file content)

end Files

namespace Scan

section Found

variable {tree : Files.Node} {roots extensions : List Bytes} {found : List Found}

mutual

/-- Below a folder a file is found under a cleaned path. -/
theorem clean_of_mem_atNode (extensions : List Bytes) (name path : Bytes) (node : Files.Node)
    (filled : path ≠ []) (cleaned : Path.clean path = path) {file : Found}
    (member : file ∈ atNode extensions name path node) : Path.clean file.path = file.path := by
  cases node with
  | file content =>
      rw [atNode] at member
      split at member
      · cases List.mem_singleton.mp member
        exact cleaned
      · cases member
  | link target =>
      rw [atNode] at member
      cases member
  | folder entries =>
      rw [atNode] at member
      split at member
      · cases member
      · exact clean_of_mem_below extensions path entries filled member

theorem clean_of_mem_below (extensions : List Bytes) (folder : Bytes)
    (entries : List (Bytes × Files.Node)) (filled : folder ≠ []) {file : Found}
    (member : file ∈ below extensions folder entries) : Path.clean file.path = file.path := by
  match entries with
  | [] =>
      rw [below] at member
      cases member
  | (name, node) :: entries =>
      rw [below] at member
      rcases List.mem_append.mp member with here | later
      · exact clean_of_mem_atNode extensions name _ node (Path.join_ne_nil filled)
          (Path.clean_join filled name) here
      · exact clean_of_mem_below extensions folder entries filled later

end

/-- Keeps a file unless its path was found before. -/
def keep (seen : List Found) (file : Found) : List Found :=
  if seen.any (·.path == file.path) then seen else seen ++ [file]

/-- What has been kept of the files that were found so far. -/
structure Kept (kept files : List Found) : Prop where
  nodup : (kept.map (·.path)).Nodup
  subset : ∀ file ∈ kept, file ∈ files
  paths : ∀ file ∈ files, file.path ∈ kept.map (·.path)

theorem Kept.keep {kept files : List Found} (state : Kept kept files) (file : Found) :
    Kept (keep kept file) (files ++ [file]) := by
  unfold Scan.keep
  split
  · next before =>
      have known : file.path ∈ kept.map (·.path) := by
        obtain ⟨other, member, same⟩ := List.any_eq_true.mp before
        exact List.mem_map.mpr ⟨other, member, beq_iff_eq.mp same⟩
      refine ⟨state.nodup, ?_, ?_⟩
      · intro other member
        exact List.mem_append_left _ (state.subset other member)
      · intro other member
        rcases List.mem_append.mp member with earlier | last
        · exact state.paths other earlier
        · rw [List.mem_singleton.mp last]
          exact known
  · next before =>
      have fresh : file.path ∉ kept.map (·.path) := by
        intro known
        obtain ⟨other, member, same⟩ := List.mem_map.mp known
        exact before (List.any_eq_true.mpr ⟨other, member, beq_iff_eq.mpr same⟩)
      refine ⟨?_, ?_, ?_⟩
      · rw [List.map_append, List.map_singleton, ← List.concat_eq_append]
        exact List.Nodup.concat fresh state.nodup
      · intro other member
        rcases List.mem_append.mp member with earlier | last
        · exact List.mem_append_left _ (state.subset other earlier)
        · exact List.mem_append_right _ last
      · intro other member
        rw [List.map_append]
        rcases List.mem_append.mp member with earlier | last
        · exact List.mem_append_left _ (state.paths other earlier)
        · rw [List.mem_singleton.mp last]
          exact List.mem_append_right _ List.mem_cons_self

theorem Kept.foldl {kept files : List Found} (state : Kept kept files) (more : List Found) :
    Kept (more.foldl Scan.keep kept) (files ++ more) := by
  induction more generalizing kept files with
  | nil =>
      rw [List.append_nil]
      exact state
  | cons file more ih =>
      have further := ih (state.keep file)
      rwa [List.append_assoc] at further

theorem kept_distinct (files : List Found) : Kept (distinct files) files := by
  have start : Kept [] [] := ⟨List.nodup_nil, nofun, nofun⟩
  exact start.foldl files

theorem of_bind_pure {α β ε : Type} {outcome : Except ε α} {finish : α → β} {result : β}
    (succeeds : (do return finish (← outcome)) = Except.ok (ε := ε) result) :
    ∃ value, outcome = .ok value ∧ result = finish value := by
  cases outcome with
  | error failure => cases succeeds
  | ok value =>
      cases succeeds
      exact ⟨value, rfl, rfl⟩

theorem of_mapM_cons {α β ε : Type} {run : α → Except ε β} {item : α} {items : List α}
    {results : List β} (succeeds : (item :: items).mapM run = .ok results) :
    ∃ result later, run item = .ok result ∧ items.mapM run = .ok later ∧
      results = result :: later := by
  rw [List.mapM_cons] at succeeds
  cases first : run item with
  | error failure =>
      rw [first] at succeeds
      cases succeeds
  | ok result =>
      cases others : items.mapM run with
      | error failure =>
          rw [first, others] at succeeds
          cases succeeds
      | ok later =>
          rw [first, others] at succeeds
          cases succeeds
          exact ⟨result, later, rfl, rfl, rfl⟩

theorem of_mapM_ok {α β ε : Type} {run : α → Except ε β} {items : List α} {results : List β}
    (succeeds : items.mapM run = .ok results) :
    (∀ result ∈ results, ∃ item ∈ items, run item = .ok result) ∧
      ∀ item ∈ items, ∃ result ∈ results, run item = .ok result := by
  induction items generalizing results with
  | nil =>
      cases succeeds
      exact ⟨nofun, nofun⟩
  | cons item items ih =>
      obtain ⟨result, later, first, others, rfl⟩ := of_mapM_cons succeeds
      obtain ⟨back, forth⟩ := ih others
      constructor
      · intro value member
        rcases List.mem_cons.mp member with rfl | member
        · exact ⟨item, List.mem_cons_self, first⟩
        · obtain ⟨other, otherMember, ran⟩ := back value member
          exact ⟨other, List.mem_cons_of_mem _ otherMember, ran⟩
      · intro other member
        rcases List.mem_cons.mp member with rfl | member
        · exact ⟨result, List.mem_cons_self, first⟩
        · obtain ⟨value, valueMember, ran⟩ := forth other member
          exact ⟨value, List.mem_cons_of_mem _ valueMember, ran⟩

/-- What a scan finds is what is found at its roots. -/
theorem scan_ok (scanned : scan tree roots extensions = .ok found) :
    ∃ files, Kept found files ∧
      (∀ file ∈ files, ∃ root ∈ roots, ∃ list, scanRoot tree extensions root = .ok list ∧
        file ∈ list) ∧
      ∀ root ∈ roots, ∃ list, scanRoot tree extensions root = .ok list ∧
        ∀ file ∈ list, file ∈ files := by
  obtain ⟨lists, ran, rfl⟩ := of_bind_pure scanned
  obtain ⟨back, forth⟩ := of_mapM_ok ran
  refine ⟨lists.flatten, kept_distinct _, ?_, ?_⟩
  · intro file member
    obtain ⟨list, listMember, inside⟩ := List.mem_flatten.mp member
    obtain ⟨root, rootMember, fromRoot⟩ := back list listMember
    exact ⟨root, rootMember, list, fromRoot, inside⟩
  · intro root member
    obtain ⟨list, listMember, fromRoot⟩ := forth root member
    refine ⟨list, fromRoot, ?_⟩
    intro file inside
    exact List.mem_flatten.mpr ⟨list, listMember, inside⟩

theorem scanRoot_of_inspect {root : Bytes} {node : Files.Node}
    (there : Files.inspect tree root = .ok node) :
    scanRoot tree extensions root = atRoot tree (Scan.extensions extensions) root node := by
  rw [scanRoot, there]
  rfl

theorem of_scanRoot {root : Bytes} (scanned : scanRoot tree extensions root = .ok found) :
    ∃ node, Files.inspect tree root = .ok node ∧
      atRoot tree (Scan.extensions extensions) root node = .ok found := by
  cases there : Files.inspect tree root with
  | error failure =>
      rw [scanRoot, there] at scanned
      cases scanned
  | ok node => exact ⟨node, rfl, (scanRoot_of_inspect there).symm.trans scanned⟩

theorem clean_of_mem_atEntry {root name : Bytes} {node : Files.Node} (filled : root ≠ [])
    (entered : atEntry tree extensions root name node = .ok found) {file : Found}
    (member : file ∈ found) : Path.clean file.path = file.path := by
  rw [atEntry] at entered
  split at entered
  · obtain ⟨others, -, rfl⟩ := of_bind_pure entered
    exact clean_of_mem_below extensions _ others (Path.join_ne_nil filled) member
  · cases entered
    exact clean_of_mem_atNode extensions name _ node (Path.join_ne_nil filled)
      (Path.clean_join filled name) member

/-- A file is found under a cleaned path, or it is the root and found as that is spelled. -/
theorem clean_or_root_of_scanRoot {root : Bytes}
    (scanned : scanRoot tree extensions root = .ok found) {file : Found} (member : file ∈ found) :
    Path.clean file.path = file.path ∨ file.path = root ∧ Files.NamesFile tree root := by
  obtain ⟨node, there, listed⟩ := of_scanRoot scanned
  cases node with
  | file content =>
      cases listed
      cases List.mem_singleton.mp member
      exact .inr ⟨rfl, content, there⟩
  | link target =>
      cases listed
      cases member
  | folder entries =>
      obtain ⟨lists, ran, rfl⟩ := of_bind_pure listed
      obtain ⟨list, listMember, inside⟩ := List.mem_flatten.mp (List.mem_mergeSort.mp member)
      obtain ⟨entry, -, entered⟩ := (of_mapM_ok ran).1 list listMember
      exact .inl (clean_of_mem_atEntry (Files.inspect_ne_nil there) entered inside)

/-- A file is found under a cleaned path, or it is a root and found as that is spelled. -/
theorem clean_or_root (scanned : scan tree roots extensions = .ok found) {file : Found}
    (member : file ∈ found) :
    Path.clean file.path = file.path ∨ file.path ∈ roots ∧ Files.NamesFile tree file.path := by
  obtain ⟨files, kept, back, -⟩ := scan_ok scanned
  obtain ⟨root, rootMember, list, fromRoot, inside⟩ := back file (kept.subset file member)
  rcases clean_or_root_of_scanRoot fromRoot inside with cleaned | ⟨rfl, isFile⟩
  · exact .inl cleaned
  · exact .inr ⟨rootMember, isFile⟩

/-- A root that is a file is found as it is spelled. -/
theorem root_found (scanned : scan tree roots extensions = .ok found) {root : Bytes}
    (member : root ∈ roots) (isFile : Files.NamesFile tree root) :
    ∃ file ∈ found, file.path = root := by
  obtain ⟨files, kept, -, forth⟩ := scan_ok scanned
  obtain ⟨list, fromRoot, all⟩ := forth root member
  obtain ⟨content, isContent⟩ := isFile
  rw [scanRoot_of_inspect isContent] at fromRoot
  cases fromRoot
  have listed := kept.paths _ (all ⟨root, content.length⟩ List.mem_cons_self)
  exact List.mem_map.mp listed

/-- Paths are found once as they are spelled.  After cleaning they are still different
exactly when no root that is a file is found under another spelling too, which is so when
these roots are spelled as cleaning spells them.  In a tree without links, those that do
not leave the tree on their way then lead to different files. -/
theorem scan_distinct_iff (scanned : scan tree roots extensions = .ok found) :
    (found.map (·.path)).Nodup ∧
      ((found.map fun file => Path.clean file.path).Nodup ↔
        ∀ root ∈ roots, Files.NamesFile tree root → ∀ file ∈ found,
          Path.clean file.path = Path.clean root → file.path = root) ∧
      ((∀ root ∈ roots, Files.NamesFile tree root → Path.clean root = root) →
        (found.map fun file => Path.clean file.path).Nodup) ∧
      ((found.map fun file => Path.clean file.path).Nodup → tree.Linkless →
        found.Pairwise fun file other => Path.Inside file.path → Path.Inside other.path →
          ¬ Files.SameFile tree file.path other.path) := by
  obtain ⟨files, ⟨nodup, -, -⟩, -, -⟩ := scan_ok scanned
  have once : (∀ root ∈ roots, Files.NamesFile tree root → ∀ file ∈ found,
      Path.clean file.path = Path.clean root → file.path = root) →
        (found.map fun file => Path.clean file.path).Nodup := by
    intro spelledOnce
    refine List.Nodup.map_on ?_ (List.Nodup.of_map _ nodup)
    intro file member other otherMember same
    apply List.inj_on_of_nodup_map nodup member otherMember
    rcases clean_or_root scanned member with cleaned | ⟨isRoot, isFile⟩
    · rcases clean_or_root scanned otherMember with otherCleaned | ⟨isRoot, isFile⟩
      · rw [← cleaned, same, otherCleaned]
      · exact spelledOnce other.path isRoot isFile file member same
    · exact (spelledOnce file.path isRoot isFile other otherMember same.symm).symm
  refine ⟨nodup, ⟨?_, once⟩, ?_, ?_⟩
  · intro distinct root member isFile file fileMember same
    obtain ⟨asSpelled, spelledMember, rfl⟩ := root_found scanned member isFile
    rw [List.inj_on_of_nodup_map distinct fileMember spelledMember same]
  · intro cleanRoots
    apply once
    intro root member isFile file fileMember same
    rw [cleanRoots root member isFile] at same
    rcases clean_or_root scanned fileMember with cleaned | ⟨isRoot, fileIsFile⟩
    · rw [← cleaned, same]
    · rw [← cleanRoots file.path isRoot fileIsFile, same]
  · intro distinct linkless
    refine (List.pairwise_map.mp distinct).imp ?_
    intro file other differ inside otherInside same
    exact differ (same.clean_eq linkless inside otherInside)

/-- Files that are found in order stay in that order. -/
theorem atRoot_of_sorted {root : Bytes} {entries : List (Bytes × Files.Node)}
    {lists : List (List Found)}
    (entered : (entries.mapM fun entry => atEntry tree extensions root entry.1 entry.2) = .ok lists)
    (sorted : lists.flatten.Pairwise fun left right => Bytes.le left.path right.path = true) :
    atRoot tree extensions root (.folder entries) = .ok lists.flatten := by
  rw [atRoot, entered]
  exact congrArg Except.ok (List.mergeSort_of_pairwise sorted)

/-- A file at the top and one in a folder. -/
def shelf : Files.Node :=
  .folder [(bytes "a.txt", .file (bytes "hi")),
    (bytes "sub", .folder [(bytes "b.txt", .file (bytes "yo"))])]

/-- The top, the folder and the file, so that both files are met twice. -/
def shelfRoots : List Bytes :=
  [bytes ".", bytes "./sub/", bytes "a.txt"]

theorem scan_distinct_iff_shelf :
    scan shelf shelfRoots [] =
        .ok [⟨bytes "a.txt", 2⟩, ⟨bytes "sub/b.txt", 2⟩] ∧
      (∀ root ∈ shelfRoots, Files.NamesFile shelf root → Path.clean root = root) ∧
      ([⟨bytes "a.txt", 2⟩, ⟨bytes "sub/b.txt", 2⟩].map
        fun file : Found => Path.clean file.path).Nodup := by
  have file : atEntry shelf [] (bytes ".") (bytes "a.txt") (.file (bytes "hi")) =
      .ok [⟨bytes "a.txt", 2⟩] := by
    rw [atEntry, if_neg (by decide), atNode]
    decide
  have folder : atEntry shelf [] (bytes ".") (bytes "sub")
      (.folder [(bytes "b.txt", .file (bytes "yo"))]) = .ok [⟨bytes "sub/b.txt", 2⟩] := by
    have files : below [] (Path.join (bytes ".") (bytes "sub"))
        [(bytes "b.txt", .file (bytes "yo"))] = [⟨bytes "sub/b.txt", 2⟩] := by
      simp only [below, atNode]
      decide
    rw [← files]
    rfl
  have inner : atEntry shelf [] (bytes "./sub/") (bytes "b.txt") (.file (bytes "yo")) =
      .ok [⟨bytes "sub/b.txt", 2⟩] := by
    rw [atEntry, if_neg (by decide), atNode]
    decide
  have top : scanRoot shelf [] (bytes ".") =
      .ok [⟨bytes "a.txt", 2⟩, ⟨bytes "sub/b.txt", 2⟩] := by
    have entered : (List.mapM (fun entry => atEntry shelf [] (bytes ".") entry.1 entry.2)
        [(bytes "a.txt", .file (bytes "hi")),
          (bytes "sub", .folder [(bytes "b.txt", .file (bytes "yo"))])]) =
          .ok [[⟨bytes "a.txt", 2⟩], [⟨bytes "sub/b.txt", 2⟩]] := by
      rw [List.mapM_cons, List.mapM_cons, file, folder]
      rfl
    exact atRoot_of_sorted entered (by decide)
  have sub : scanRoot shelf [] (bytes "./sub/") = .ok [⟨bytes "sub/b.txt", 2⟩] := by
    have entered : (List.mapM (fun entry => atEntry shelf [] (bytes "./sub/") entry.1 entry.2)
        [(bytes "b.txt", .file (bytes "yo"))]) = .ok [[⟨bytes "sub/b.txt", 2⟩]] := by
      rw [List.mapM_cons, inner]
      rfl
    exact atRoot_of_sorted entered (by decide)
  have scanned : scan shelf shelfRoots [] =
      .ok [⟨bytes "a.txt", 2⟩, ⟨bytes "sub/b.txt", 2⟩] := by
    rw [scan, shelfRoots, List.mapM_cons, List.mapM_cons, top, sub]
    decide
  have cleanRoots : ∀ root ∈ shelfRoots, Files.NamesFile shelf root → Path.clean root = root := by
    intro root member isFile
    simp only [shelfRoots, List.mem_cons, List.not_mem_nil, or_false] at member
    obtain ⟨content, isFile⟩ := isFile
    rcases member with rfl | rfl | rfl
    · cases isFile
    · cases isFile
    · decide
  exact ⟨scanned, cleanRoots, (scan_distinct_iff scanned).2.2.1 cleanRoots⟩

/-- A file that is a root under two spellings is found twice. -/
theorem scan_finds_twice :
    scan shelf [bytes "a.txt", bytes "./a.txt"] [] =
        .ok [⟨bytes "a.txt", 2⟩, ⟨bytes "./a.txt", 2⟩] ∧
      Path.clean (bytes "./a.txt") = Path.clean (bytes "a.txt") ∧
      Files.SameFile shelf (bytes "a.txt") (bytes "./a.txt") := by
  decide

end Found

end Scan

end Stencil
