import Stencil.Proofs.CleanPath
import Stencil.Proofs.FileReplacement
import Stencil.Watch

/-!
# Which folders are watched

Folders come to be watched in two ways: roots are given, and new folders are heard
of in folders that are watched already.  Both take the folders below with them, the
hidden ones apart.  So every watched folder lies below a root that was given, and a
hidden folder on the way to it is one that was itself heard of when it was new
(`Reached`).  As long as no hidden folder is heard of, none is watched.
-/

namespace Stencil

namespace Keyed

theorem key_mem_put {α : Type} {key name : Bytes} {value : α} {map : Keyed α}
    (member : name ∈ (put key value map).map (·.1)) : name = key ∨ name ∈ map.map (·.1) := by
  induction map with
  | nil => simpa [put] using member
  | cons entry map ih =>
      obtain ⟨other, kept⟩ := entry
      rw [put] at member
      split at member
      · next same =>
          subst same
          simpa using member
      split at member
      · simpa using member
      · rcases List.mem_cons.mp member with here | later
        · exact .inr (by simp [here])
        · rcases ih later with isKey | found
          · exact .inl isKey
          · exact .inr (List.mem_cons_of_mem _ found)

end Keyed

namespace Files.Node

mutual

/-- Everything in the folders of a tree has a name that a path can spell. -/
def Proper : Node → Prop
  | .folder entries => ProperEntries entries
  | _ => True

/-- `Proper` for the entries of a folder. -/
def ProperEntries : List (Bytes × Node) → Prop
  | [] => True
  | (name, node) :: entries => Path.EntryName name ∧ node.Proper ∧ ProperEntries entries

end

theorem ProperEntries.of_get? {entries : List (Bytes × Node)} (proper : ProperEntries entries)
    {name : Bytes} {node : Node} (found : Keyed.get? entries name = some node) :
    node.Proper := by
  induction entries with
  | nil => cases found
  | cons entry entries ih =>
      obtain ⟨other, first⟩ := entry
      obtain ⟨-, firstProper, later⟩ := proper
      rw [Keyed.get?, List.lookup_cons] at found
      split at found
      · cases found
        exact firstProper
      · exact ih later found

theorem Proper.of_get? {tree node : Node} (proper : tree.Proper) {location : Location}
    (found : tree.get? location = some node) : node.Proper := by
  induction location generalizing tree with
  | nil =>
      rw [get?, Option.some.injEq] at found
      rw [← found]
      exact proper
  | cons name location ih =>
      obtain ⟨entries, child, rfl, inside, below⟩ := get?_cons_eq_some found
      exact ih (ProperEntries.of_get? proper inside) below

end Files.Node

namespace Files

theorem proper_of_inspect {tree node : Node} {path : Bytes} (proper : tree.Proper)
    (found : inspect tree path = .ok node) : node.Proper := by
  obtain ⟨location, -, inside⟩ := find_eq_ok_iff.mp (find_of_inspect found)
  exact proper.of_get? inside

theorem proper_of_list {tree : Node} {path : Bytes} {entries : List (Bytes × Node)}
    (proper : tree.Proper) (listed : list tree path = .ok entries) :
    Node.ProperEntries entries := by
  obtain ⟨location, -, inside⟩ := find_eq_ok_iff.mp (find_of_list listed)
  exact proper.of_get? inside

end Files

namespace Watcher

open Stencil.Path

/-- Down through folders that are not hidden. -/
def Visible (root path : Bytes) : Prop :=
  ∃ names, Leads root names path ∧ ∀ name ∈ names, isHidden name = false

theorem Visible.below {folder name path : Bytes} (filled : folder ≠ []) (entry : EntryName name)
    (shown : isHidden name = false) (visible : Visible (join folder name) path) :
    Visible folder path := by
  obtain ⟨names, leads, allShown⟩ := visible
  exact ⟨[name] ++ names, (Leads.join filled entry).trans leads,
    List.forall_mem_cons.mpr ⟨shown, allShown⟩⟩

mutual

theorem visible_of_mem_foldersAt {name path found : Bytes} (node : Files.Node)
    (filled : path ≠ []) (proper : node.Proper) (member : found ∈ foldersAt name path node) :
    isHidden name = false ∧ Visible path found := by
  cases node with
  | file content => cases member
  | link target => cases member
  | folder entries =>
      rw [foldersAt] at member
      split at member
      · cases member
      · next shown =>
          rw [Bool.not_eq_true] at shown
          refine ⟨shown, ?_⟩
          rcases List.mem_cons.mp member with rfl | below
          · exact ⟨[], .refl _, by simp⟩
          · exact visible_of_mem_foldersBelow entries filled proper below

theorem visible_of_mem_foldersBelow {folder found : Bytes} (entries : List (Bytes × Files.Node))
    (filled : folder ≠ []) (proper : Files.Node.ProperEntries entries)
    (member : found ∈ foldersBelow folder entries) : Visible folder found := by
  match entries, proper with
  | [], _ => cases member
  | (name, node) :: entries, ⟨entry, nodeProper, others⟩ =>
      rw [foldersBelow] at member
      rcases List.mem_append.mp member with inside | later
      · obtain ⟨shown, visible⟩ :=
          visible_of_mem_foldersAt node (join_ne_nil filled) nodeProper inside
        exact visible.below filled entry shown
      · exact visible_of_mem_foldersBelow entries filled others later

end

section AtRoot

variable {tree : Files.Node} {root found : Bytes}

/-- What an entry's path leads to is a folder of the same tree, be it the entry or not. -/
theorem visible_of_mem_foldersAtEntry {name : Bytes} {node : Files.Node} (treeProper : tree.Proper)
    (filled : root ≠ []) (entry : EntryName name)
    (member : found ∈ (foldersAtEntry tree root name node).1) : Visible root found := by
  unfold foldersAtEntry at member
  split at member
  · next entered =>
      rw [Bool.and_eq_true] at entered
      have shown : isHidden name = false := by simpa using entered.2
      apply Visible.below filled entry shown
      split at member
      · rw [List.mem_singleton.mp member]
        exact ⟨[], .refl _, by simp⟩
      · next entries listed =>
          rcases List.mem_cons.mp member with rfl | below
          · exact ⟨[], .refl _, by simp⟩
          · exact visible_of_mem_foldersBelow entries (join_ne_nil filled)
              (Files.proper_of_list treeProper listed) below
  · cases member

theorem visible_of_mem_foldersOfEntries {entries : List (Bytes × Files.Node)}
    (treeProper : tree.Proper) (filled : root ≠ []) (proper : Files.Node.ProperEntries entries)
    (member : found ∈ (foldersOfEntries tree root entries).1) : Visible root found := by
  induction entries with
  | nil => cases member
  | cons first entries ih =>
      obtain ⟨name, node⟩ := first
      obtain ⟨entry, -, others⟩ := proper
      have atFirst : found ∈ (foldersAtEntry tree root name node).1 → Visible root found :=
        visible_of_mem_foldersAtEntry treeProper filled entry
      unfold foldersOfEntries at member
      split at member
      · next folders failure ended =>
          rw [ended] at atFirst
          exact atFirst member
      · next folders went =>
          rw [went] at atFirst
          rcases List.mem_append.mp member with inside | later
          · exact atFirst inside
          · exact ih others later

theorem visible_of_mem_foldersAtRoot {node : Files.Node} (treeProper : tree.Proper)
    (filled : root ≠ []) (proper : node.Proper)
    (member : found ∈ (foldersAtRoot tree root node).1) : Visible root found := by
  cases node with
  | file content => cases member
  | link target => cases member
  | folder entries =>
      rcases List.mem_cons.mp member with rfl | below
      · exact ⟨[], .refl _, by simp⟩
      · exact visible_of_mem_foldersOfEntries treeProper filled proper below

end AtRoot

/-- The paths of the watched folders. -/
def folders (watcher : Watcher) : List Bytes :=
  watcher.watched.map (·.1)

section Growth

variable {tree : Files.Node} {watcher : Watcher} {path : Bytes}

theorem mem_folders_watch {folder : Bytes} {after : Watcher}
    (watched : watch tree watcher folder = .ok after) (member : path ∈ after.folders) :
    path ∈ watcher.folders ∨ path = clean folder := by
  unfold watch at watched
  split at watched
  · cases watched
  · dsimp only at watched
    split at watched
    · cases watched
    · cases watched
    · split at watched
      · cases watched
        exact .inl member
      · cases watched
        exact (Keyed.key_mem_put member).symm

theorem mem_folders_watchAll {found : List Bytes}
    (member : path ∈ (watchAll tree watcher found).1.folders) :
    path ∈ watcher.folders ∨ ∃ folder ∈ found, path = clean folder := by
  induction found generalizing watcher with
  | nil => exact .inl member
  | cons folder found ih =>
      unfold watchAll at member
      split at member
      · exact .inl member
      · next after watched =>
          rcases ih member with before | ⟨other, later, same⟩
          · rcases mem_folders_watch watched before with known | same
            · exact .inl known
            · exact .inr ⟨folder, List.mem_cons_self, same⟩
          · exact .inr ⟨other, List.mem_cons_of_mem _ later, same⟩

theorem mem_folders_addRoot (proper : tree.Proper) {root : Bytes}
    (member : path ∈ (addRoot tree watcher root).1.folders) :
    path ∈ watcher.folders ∨ path ≠ [] ∧ Visible root path := by
  unfold addRoot at member
  split at member
  · exact .inl member
  · next node inspected =>
      rcases mem_folders_watchAll member with known | ⟨folder, found, rfl⟩
      · exact .inl known
      · obtain ⟨names, leads, shown⟩ := visible_of_mem_foldersAtRoot proper
          (Files.inspect_ne_nil inspected) (Files.proper_of_inspect proper inspected) found
        exact .inr ⟨clean_ne_nil folder, names, leads.clean, shown⟩

/-- What comes to be watched lies below one of the roots, and not in a hidden
folder below it. -/
theorem mem_folders_add (proper : tree.Proper) {roots : List Bytes}
    (member : path ∈ (watcher.add tree roots).1.folders) :
    path ∈ watcher.folders ∨ path ≠ [] ∧ ∃ root ∈ roots, Visible root path := by
  induction roots generalizing watcher with
  | nil => exact .inl member
  | cons root roots ih =>
      have atRoot : path ∈ (addRoot tree watcher root).1.folders →
          path ∈ watcher.folders ∨ path ≠ [] ∧ ∃ other ∈ root :: roots, Visible other path := by
        intro added
        exact (mem_folders_addRoot proper added).imp_right fun ⟨isPath, visible⟩ =>
          ⟨isPath, root, List.mem_cons_self, visible⟩
      rw [add] at member
      split at member
      · next after failure ended =>
          rw [ended] at atRoot
          exact atRoot member
      · next after went =>
          rw [went] at atRoot
          rcases ih member with before | ⟨isPath, other, later, visible⟩
          · exact atRoot before
          · exact .inr ⟨isPath, other, List.mem_cons_of_mem _ later, visible⟩

end Growth

/-- The path under which an entry of a watched folder is heard of. -/
def entryPath (folder name : Bytes) : Bytes :=
  folder ++ byte '/' :: name

/-- Something that a watcher is told, and the files as they are then. -/
inductive Signal where
  | roots (tree : Files.Node) (given : List Bytes)
  /-- Something happens to an entry of a folder. -/
  | events (tree : Files.Node) (folder name : Bytes) (events : List Event)

/-- What a signal makes of a watcher. -/
def told (watcher : Watcher) : Signal → Watcher
  | .roots tree given => (watcher.add tree given).1
  | .events tree folder name events => (watcher.notice tree (entryPath folder name) events).1

/-- What signals make of a watcher.  The latest comes first. -/
def toldAll (start : Watcher) : List Signal → Watcher
  | [] => start
  | signal :: earlier => (start.toldAll earlier).told signal

/-- Signals as they can come: only entries of watched folders are heard of. -/
inductive Possible (start : Watcher) : List Signal → Prop where
  | none : Possible start []
  | roots {earlier : List Signal} {tree : Files.Node} {given : List Bytes}
      (before : Possible start earlier) (proper : tree.Proper) :
      Possible start (.roots tree given :: earlier)
  | events {earlier : List Signal} {tree : Files.Node} {folder name : Bytes} {events : List Event}
      (before : Possible start earlier) (proper : tree.Proper)
      (watched : folder ∈ (start.toldAll earlier).folders) (entry : EntryName name) :
      Possible start (.events tree folder name events :: earlier)

/-- The root was given. -/
def Given (history : List Signal) (root : Bytes) : Prop :=
  ∃ tree given, Signal.roots tree given ∈ history ∧ root ∈ given

/-- A new folder was heard of, with these names on its path. -/
def Announced (history : List Signal) (names : List Bytes) : Prop :=
  ∃ tree folder name events, Signal.events tree folder name events ∈ history ∧
    events.contains .create = true ∧ isFolder tree (entryPath folder name) = true ∧
    names = cleanNames (entryPath folder name)

/-- Down from a root through folders that are not hidden or were announced. -/
inductive Reached (history : List Signal) (root : Bytes) : List Bytes → Prop where
  | root : Reached history root []
  | down {names : List Bytes} {name : Bytes} (reached : Reached history root names)
      (allowed : isHidden name = false ∨ Announced history (cleanNames root ++ names ++ [name])) :
      Reached history root (names ++ [name])

/-- A folder that is reached from a root that was given. -/
def Allowed (history : List Signal) (path : Bytes) : Prop :=
  ∃ root names, Given history root ∧ Leads root names path ∧ Reached history root names

section Allowed

variable {history : List Signal} {signal : Signal} {root : Bytes} {names : List Bytes}

theorem Given.later (given : Given history root) : Given (signal :: history) root := by
  obtain ⟨tree, roots, member, root⟩ := given
  exact ⟨tree, roots, List.mem_cons_of_mem _ member, root⟩

theorem Announced.later (announced : Announced history names) :
    Announced (signal :: history) names := by
  obtain ⟨tree, folder, name, events, member, rest⟩ := announced
  exact ⟨tree, folder, name, events, List.mem_cons_of_mem _ member, rest⟩

theorem Reached.later (reached : Reached history root names) :
    Reached (signal :: history) root names := by
  induction reached with
  | root => exact .root
  | down reached allowed ih => exact .down ih (allowed.imp_right Announced.later)

theorem Reached.visible (reached : Reached history root names) {others : List Bytes}
    (shown : ∀ name ∈ others, isHidden name = false) : Reached history root (names ++ others) := by
  induction others generalizing names with
  | nil =>
      rw [List.append_nil]
      exact reached
  | cons name others ih =>
      obtain ⟨first, later⟩ := List.forall_mem_cons.mp shown
      rw [← List.singleton_append, ← List.append_assoc]
      exact ih (.down reached (.inl first)) later

/-- Without a hidden folder that was announced, there is none on the way. -/
theorem Reached.shown (reached : Reached history root names)
    (unannounced : ∀ names name, Announced history (names ++ [name]) → isHidden name = false) :
    ∀ name ∈ names, isHidden name = false := by
  induction reached with
  | root => simp
  | down reached allowed ih =>
      intro name member
      rcases List.mem_append.mp member with before | last
      · exact ih name before
      · rw [List.mem_singleton.mp last]
        exact allowed.elim id (unannounced _ _)

theorem Allowed.later {path : Bytes} (allowed : Allowed history path) :
    Allowed (signal :: history) path := by
  obtain ⟨root, names, given, leads, reached⟩ := allowed
  exact ⟨root, names, given.later, leads, reached.later⟩

theorem Allowed.visible {folder path : Bytes} (allowed : Allowed history folder)
    (visible : Visible folder path) : Allowed history path := by
  obtain ⟨root, names, given, leads, reached⟩ := allowed
  obtain ⟨others, further, shown⟩ := visible
  exact ⟨root, names ++ others, given, leads.trans further, reached.visible shown⟩

/-- An entry that was announced is allowed, hidden or not. -/
theorem Allowed.announced {folder name : Bytes} (allowed : Allowed history folder)
    (filled : folder ≠ []) (entry : EntryName name)
    (announced : Announced history (cleanNames (entryPath folder name))) :
    Allowed history (entryPath folder name) := by
  obtain ⟨root, names, given, leads, reached⟩ := allowed
  have further : Leads root (names ++ [name]) (entryPath folder name) :=
    leads.trans (.child filled entry)
  refine ⟨root, names ++ [name], given, further, .down reached (.inr ?_)⟩
  rw [further.cleaned, ← List.append_assoc] at announced
  exact announced

end Allowed

section Histories

variable {start : Watcher} {history : List Signal}

/-- Every watched folder is allowed, whatever happened. -/
theorem Possible.allowed (possible : Possible start history) (fresh : start.watched = [])
    {path : Bytes} (member : path ∈ (start.toldAll history).folders) :
    path ≠ [] ∧ Allowed history path := by
  induction possible generalizing path with
  | none =>
      rw [toldAll, folders, fresh] at member
      cases member
  | @roots earlier tree given before proper ih =>
      rcases mem_folders_add proper member with known | ⟨isPath, root, chosen, visible⟩
      · exact ⟨(ih known).1, (ih known).2.later⟩
      · have isGiven : Given (.roots tree given :: earlier) root :=
          ⟨tree, given, List.mem_cons_self, chosen⟩
        have allowed : Allowed (.roots tree given :: earlier) root :=
          ⟨root, [], isGiven, .refl root, .root⟩
        exact ⟨isPath, allowed.visible visible⟩
  | @events earlier tree folder name events before proper watched entry ih =>
      rw [toldAll, told, notice] at member
      split at member
      · next new =>
          rw [Bool.and_eq_true] at new
          rcases mem_folders_add proper member with known | ⟨isPath, root, chosen, visible⟩
          · exact ⟨(ih known).1, (ih known).2.later⟩
          · -- The new folder is the root of its own walk, where no name is looked at.
            obtain rfl := List.mem_singleton.mp chosen
            obtain ⟨filled, allowed⟩ := ih watched
            have announced : Announced (.events tree folder name events :: earlier)
                (cleanNames (entryPath folder name)) :=
              ⟨tree, folder, name, events, List.mem_cons_self, new.1, new.2, rfl⟩
            exact ⟨isPath, (allowed.later.announced filled entry announced).visible visible⟩
      · exact ⟨(ih member).1, (ih member).2.later⟩

/-- A file that is handed on is not hidden itself. -/
theorem not_isHidden_of_notice {tree : Files.Node} {watcher : Watcher} {folder name : Bytes}
    {events : List Event} (entry : EntryName name)
    (handed : (watcher.notice tree (entryPath folder name) events).2 = true) :
    isHidden name = false := by
  unfold notice at handed
  split at handed
  · cases handed
  · rw [Bool.and_eq_true, isTarget, Bool.and_eq_true, entryPath, base_child entry.isName] at handed
    simpa using handed.2.1

/-- Whatever roots are given and whatever is heard of: every watched folder lies below a
root that was given, and each hidden folder on the way to it was itself announced as
new; a file that is handed on is not hidden and lies in such a folder.  So where no
hidden folder is announced, neither a watched folder nor a file that is handed on
lies in one below its root. -/
theorem watched_below_roots (fresh : start.watched = []) (possible : Possible start history) :
    (∀ path ∈ (start.toldAll history).folders, Allowed history path) ∧
    (∀ tree folder name events, Possible start (.events tree folder name events :: history) →
      ((start.toldAll history).notice tree (entryPath folder name) events).2 = true →
      isHidden name = false ∧ Allowed history folder ∧ Allowed history (entryPath folder name)) ∧
    ((∀ names name, Announced history (names ++ [name]) → isHidden name = false) →
      ∀ path, Allowed history path → ∃ root, Given history root ∧ Visible root path) := by
  refine ⟨fun path member => (possible.allowed fresh member).2, ?_, ?_⟩
  · intro tree folder name events next handed
    cases next with
    | events before proper watched entry =>
        have shown := not_isHidden_of_notice entry handed
        obtain ⟨filled, allowed⟩ := possible.allowed fresh watched
        have below : Visible folder (entryPath folder name) :=
          ⟨[name], .child filled entry, by simpa using shown⟩
        exact ⟨shown, allowed, allowed.visible below⟩
  · rintro unannounced path ⟨root, names, given, leads, reached⟩
    exact ⟨root, given, names, leads, reached.shown unannounced⟩

end Histories

/-- Processes nothing, and watches nothing yet. -/
def idle : Watcher where
  runner := { process := fun text => (text, {}), mode := .write }

/-- A folder with the folders `.git` and `src`. -/
def checkout : Files.Node :=
  .folder [(bytes ".git", .folder [(bytes "config", .file [])]), (bytes "src", .folder [])]

theorem proper_checkout : checkout.Proper :=
  ⟨by decide, ⟨by decide, trivial, trivial⟩, by decide, trivial, trivial⟩

/-- The same with a folder `lib` that has a hidden one and another in it. -/
def extended : Files.Node :=
  .folder [(bytes ".git", .folder [(bytes "config", .file [])]),
    (bytes "lib", .folder [(bytes ".cache", .folder []), (bytes "deep", .folder [])]),
    (bytes "src", .folder [])]

theorem proper_extended : extended.Proper :=
  ⟨by decide, ⟨by decide, trivial, trivial⟩,
    by decide, ⟨by decide, trivial, by decide, trivial, trivial⟩, by decide, trivial, trivial⟩

/-- `lib` is new: the folder in it that is not hidden comes to be watched with it, and
a file there is handed on. -/
theorem watched_below_roots_nested :
    ∃ history, Possible idle history ∧
      (idle.toldAll history).folders = [bytes ".", bytes "lib", bytes "lib/deep", bytes "src"] ∧
      ((idle.toldAll history).notice extended (bytes "lib/deep/a") [.write]).2 = true ∧
      ∃ root, Given history root ∧ Visible root (bytes "lib/deep/a") := by
  have first : Possible idle [.roots checkout [bytes "."]] := .roots .none proper_checkout
  have second : Possible idle
      [.events extended (bytes ".") (bytes "lib") [.create], .roots checkout [bytes "."]] :=
    .events first proper_extended (by decide +kernel) (by decide)
  have spelled : entryPath (bytes "lib/deep") (bytes "a") = bytes "lib/deep/a" := by decide
  refine ⟨_, second, by decide +kernel, by decide +kernel, ?_⟩
  obtain ⟨-, handedOn, visible⟩ := watched_below_roots rfl second
  apply visible
  · rintro names name ⟨tree, folder, other, events, member, -, -, same⟩
    simp only [List.mem_cons, Signal.events.injEq, reduceCtorEq, List.not_mem_nil, or_false]
      at member
    obtain ⟨rfl, rfl, rfl, rfl⟩ := member
    have last : names ++ [name] = [] ++ [bytes "lib"] := by
      rw [same]
      decide
    rw [List.singleton_inj.mp (List.append_inj' last rfl).2]
    decide
  · rw [← spelled]
    exact (handedOn extended (bytes "lib/deep") (bytes "a") [.write]
      (.events second proper_extended (by decide +kernel) (by decide)) (by decide +kernel)).2.2

/-- A hidden folder is not watched when the root it is in is given, but it is watched
once it is announced, and then its files are handed on. -/
theorem hidden_watched_when_announced :
    isHidden (bytes ".git") = true ∧
      (idle.toldAll [.roots checkout [bytes "."]]).folders = [bytes ".", bytes "src"] ∧
      ∃ history, Possible idle history ∧ (∀ root, Given history root → root = bytes ".") ∧
        (idle.toldAll history).folders = [bytes ".", bytes ".git", bytes "src"] ∧
        ((idle.toldAll history).notice checkout (bytes ".git/config") [.write]).2 = true := by
  have first : Possible idle [.roots checkout [bytes "."]] := .roots .none proper_checkout
  have second : Possible idle
      [.events checkout (bytes ".") (bytes ".git") [.create], .roots checkout [bytes "."]] :=
    .events first proper_checkout (by decide +kernel) (by decide)
  refine ⟨by decide, by decide +kernel, _, second, ?_, by decide +kernel, by decide +kernel⟩
  rintro root ⟨tree, given, member, chosen⟩
  simp only [List.mem_cons, Signal.roots.injEq, reduceCtorEq, List.not_mem_nil, or_false,
    false_or] at member
  obtain ⟨-, rfl⟩ := member
  exact List.mem_singleton.mp chosen

end Watcher

end Stencil
