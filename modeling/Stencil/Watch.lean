import Stencil.Run.Basic
import Stencil.Scan

/-!
# Watching folders

A watcher processes files when they are written.  It knows which folders are
watched, and it remembers what it left in each file, so that its own writing
does not set it off again.
-/

namespace Stencil

/-- What can happen to a path. -/
inductive Event where
  | create
  | write
  | remove
  | rename
  | chmod
  deriving DecidableEq

/-- Watched folders and what is done about their files. -/
structure Watcher where
  runner : Runner
  /-- The extensions of the files to process; every file if there are none. -/
  extensions : List Bytes := []
  /-- The cleaned paths of the watched folders, and where they lead.  No two lead
  to one place. -/
  watched : Keyed Files.Location := []
  /-- Identifies what was left in the files processed so far. -/
  left : Keyed Bytes := []
  /-- The watcher has been closed and takes no more folders. -/
  closed : Bool := false

namespace Watcher

/-- A watcher for files with the given extensions.  Empty extensions do not
count, and a dot that is missing is added. -/
def make (runner : Option Runner) (extensions : List Bytes) : Except Failure Watcher :=
  match runner with
  | none => .error (.ofText (bytes "watch: runner is required"))
  | some runner =>
      .ok { runner
            extensions := (extensions.filter fun extension => !extension.isEmpty).map Path.dotted }

/-- Whether a folder is left alone because of its name. -/
def isHidden (name : Bytes) : Bool :=
  name.head? == some (byte '.')

mutual

/-- The folders at and below a named node. -/
def foldersAt (name path : Bytes) : Files.Node → List Bytes
  | .folder entries => if isHidden name then [] else path :: foldersBelow path entries
  | _ => []

/-- The folders below a folder. -/
def foldersBelow (folder : Bytes) : List (Bytes × Files.Node) → List Bytes
  | [] => []
  | (name, node) :: entries =>
      foldersAt name (Path.join folder name) node ++ foldersBelow folder entries

end

/-- The folders at and below an entry of a root.  A folder is entered by its path, which
is cleaned and can lead to another place than the root's own entry.  The folders end
where that fails. -/
def foldersAtEntry (tree : Files.Node) (root name : Bytes) (node : Files.Node) :
    List Bytes × Option Failure :=
  if node.isFolder && !isHidden name then
    match Files.list tree (Path.join root name) with
    | .error failure => ([Path.join root name], some failure)
    | .ok entries =>
        (Path.join root name :: foldersBelow (Path.join root name) entries, none)
  else
    ([], none)

/-- The folders at and below the entries of a root. -/
def foldersOfEntries (tree : Files.Node) (root : Bytes) :
    List (Bytes × Files.Node) → List Bytes × Option Failure
  | [] => ([], none)
  | (name, node) :: entries =>
      match foldersAtEntry tree root name node with
      | (folders, some failure) => (folders, some failure)
      | (folders, none) =>
          let others := foldersOfEntries tree root entries
          (folders ++ others.1, others.2)

/-- The folders at and below a root. -/
def foldersAtRoot (tree : Files.Node) (root : Bytes) : Files.Node → List Bytes × Option Failure
  | .folder entries =>
      let others := foldersOfEntries tree root entries
      (root :: others.1, others.2)
  | _ => ([], none)

/-- Watches what the cleaned path of a folder leads to, unless it is watched under another
path.  A closed watcher takes no folder. -/
def watch (tree : Files.Node) (watcher : Watcher) (folder : Bytes) : Except Failure Watcher :=
  if watcher.closed then .error (.ofText (bytes "fsnotify: watcher already closed"))
  else
    let path := Path.clean folder
    match Files.resolve tree true path with
    | .error refusal => .error (.because (.unnamed refusal))
    | .ok (.free _) => .error (.because (.unnamed .notExist))
    | .ok (.taken location) =>
        if watcher.watched.any fun (_, other) => other == location then .ok watcher
        else .ok { watcher with watched := Keyed.put path location watcher.watched }

/-- Watches folders, up to the first that cannot be watched. -/
def watchAll (tree : Files.Node) (watcher : Watcher) : List Bytes → Watcher × Option Failure
  | [] => (watcher, none)
  | folder :: folders =>
      match watch tree watcher folder with
      | .error failure => (watcher, some failure)
      | .ok watcher => watchAll tree watcher folders

/-- Watches a root and the folders below it. -/
def addRoot (tree : Files.Node) (watcher : Watcher) (root : Bytes) : Watcher × Option Failure :=
  match Files.inspect tree root with
  | .error failure => (watcher, some failure)
  | .ok node =>
      let found := foldersAtRoot tree root node
      let watched := watchAll tree watcher found.1
      (watched.1, watched.2.or found.2)

/-- Watches roots and the folders below them, up to the first failure. -/
def add (tree : Files.Node) (watcher : Watcher) : List Bytes → Watcher × Option Failure
  | [] => (watcher, none)
  | root :: roots =>
      match addRoot tree watcher root with
      | (watcher, some failure) =>
          (watcher, some (.inside (bytes "error adding directory to watcher") failure))
      | (watcher, none) => add tree watcher roots

/-- Closes a watcher: it watches nothing any more. -/
def close (watcher : Watcher) : Watcher :=
  { watcher with watched := [], closed := true }

/-- Whether a file is processed when it is written. -/
def isTarget (watcher : Watcher) (path : Bytes) : Bool :=
  !isHidden (Path.base path) && Scan.isTarget watcher.extensions path

/-- Whether a path leads to a folder. -/
def isFolder (tree : Files.Node) (path : Bytes) : Bool :=
  match Files.status tree path with
  | .ok (.folder _) => true
  | _ => false

/-- Takes note of events at a path.  A new folder is watched; a file that was
created or written and is a target is to be processed. -/
def notice (tree : Files.Node) (watcher : Watcher) (path : Bytes) (events : List Event) :
    Watcher × Bool :=
  if events.contains .create && isFolder tree path then
    ((watcher.add tree [path]).1, false)
  else
    (watcher, (events.contains .write || events.contains .create) && watcher.isTarget path)

/-- Processes a file, unless it cannot be read or has the content that was left
in it. -/
def process (watcher : Watcher) (now : Nat) (path : Bytes) (workspace : Workspace) :
    Watcher × Option Result × Workspace :=
  match Files.read workspace.files path with
  | .error _ => (watcher, none, workspace)
  | .ok content =>
      if watcher.left.get? path = some (contentHash content) then (watcher, none, workspace)
      else
        let ran := watcher.runner.runFile now path workspace
        let left :=
          if ran.1.failure.isNone then Keyed.put path (contentHash ran.1.output) watcher.left
          else watcher.left
        ({ watcher with left }, some ran.1, ran.2)

end Watcher

end Stencil
