import Stencil.Files.Resolve

/-!
# Reading and writing files

The operations on a file tree, by path.  Each names the step that was refused
when it fails, and what it changes is the tree it returns.

A tree refuses what its nodes do not allow.  That a permission is missing or a disk is
full is no matter of the nodes: a write is told of such a fault.
-/

namespace Stencil.Files

/-- A refused step. -/
def refused (action : String) (path : Bytes) (refusal : Refusal) : Failure :=
  .because (.refused (bytes action) path refusal)

/-- Adds the refused step to an outcome. -/
def naming {α : Type} (action : String) (path : Bytes) : Except Refusal α → Except Failure α
  | .ok value => .ok value
  | .error refusal => .error (refused action path refusal)

/-- What a path leads to, a link at its end included. -/
def inspect (tree : Node) (path : Bytes) : Except Failure Node :=
  naming "lstat" path (find tree false path)

/-- What a path leads to behind all links. -/
def status (tree : Node) (path : Bytes) : Except Failure Node :=
  naming "stat" path (find tree true path)

/-- The content of a file. -/
def read (tree : Node) (path : Bytes) : Except Failure Bytes :=
  match find tree true path with
  | .error refusal => .error (refused "open" path refusal)
  | .ok (.file content) => .ok content
  | .ok _ => .error (refused "read" path .isDirectory)

/-- The entries of a folder. -/
def list (tree : Node) (path : Bytes) : Except Failure (List (Bytes × Node)) :=
  match find tree true path with
  | .error refusal => .error (refused "open" path refusal)
  | .ok (.folder entries) => .ok entries
  | .ok _ => .error (refused "open" path .notDirectory)

/-- Writes a file, which need not exist. -/
def write (path content : Bytes) (tree : Node) : Except Failure Node :=
  match resolve tree true path with
  | .error refusal => .error (refused "open" path refusal)
  | .ok (.free location) => .ok (tree.put location (.file content))
  | .ok (.taken location) =>
      match tree.get? location with
      | some (.folder _) => .error (refused "open" path .isDirectory)
      | _ => .ok (tree.put location (.file content))

/-- The steps in which a file is written. -/
inductive Stage where
  | opening
  /-- The file is empty once it is open, and takes so many bytes. -/
  | filling (taken : Nat)
  | closing
  deriving DecidableEq

/-- A failure to write that is not the tree's, such as a full disk. -/
structure Fault where
  stage : Stage
  refusal : Refusal
  deriving DecidableEq

namespace Fault

/-- The step that is refused. -/
def action (fault : Fault) : String :=
  match fault.stage with
  | .opening => "open"
  | .filling _ => "write"
  | .closing => "close"

/-- What a file is left with in place of a text, unless it was not even opened. -/
def left? (fault : Fault) (content : Bytes) : Option Bytes :=
  match fault.stage with
  | .opening => none
  | .filling taken => some (content.take taken)
  | .closing => some content

end Fault

/-- Writes a file up to the step that a fault refuses.  What was done before stays. -/
def attempt (fault : Option Fault) (path content : Bytes) (tree : Node) : Node × Option Failure :=
  let written :=
    match fault with
    | none => write path content tree
    | some fault =>
        match fault.left? content with
        | none => .ok tree
        | some left => write path left tree
  match written with
  | .error failure => (tree, some failure)
  | .ok after => (after, fault.map fun fault => refused fault.action path fault.refusal)

/-- A path without the slashes at its end. -/
def bare (path : Bytes) : Bytes :=
  (path.reverse.dropWhile (· == byte '/')).reverse

/-- Makes a folder in a folder that exists.  A folder that is there already will
do. -/
def makeFolder (path : Bytes) (tree : Node) : Except Failure Node :=
  match resolve tree false (bare path) with
  | .error refusal => .error (refused "mkdir" path refusal)
  | .ok (.free location) => .ok (tree.put location (.folder []))
  | .ok (.taken location) =>
      match tree.get? location with
      | some (.folder _) => .ok tree
      | _ => .error (refused "mkdir" path .exists)

/-- Makes a folder unless there is one. -/
def ensureFolder (path : Bytes) (tree : Node) : Except Failure Node :=
  match find tree true path with
  | .ok (.folder _) => .ok tree
  | .ok _ => .error (refused "mkdir" path .notDirectory)
  | .error _ => makeFolder path tree

/-- Makes a folder and the folders it lies in. -/
def makeFolders (path : Bytes) (tree : Node) : Except Failure Node :=
  (Path.parents path ++ [path]).foldlM (fun tree folder => ensureFolder folder tree) tree

/-- Takes away what a path leads to, with everything below it. -/
def remove (path : Bytes) (tree : Node) : Node :=
  match resolve tree false path with
  | .ok (.taken location) => tree.erase location
  | _ => tree

/-- Makes a link. -/
def link (path target : Bytes) (tree : Node) : Except Failure Node :=
  match resolve tree false path with
  | .error refusal => .error (refused "symlink" path refusal)
  | .ok (.free location) => .ok (tree.put location (.link target))
  | .ok (.taken _) => .error (refused "symlink" path .exists)

/-- Writes a file together with the folders it lies in.  A slash at the end of
the path asks for a folder instead. -/
def provide (path content : Bytes) (tree : Node) : Except Failure Node :=
  if path.getLast? = some (byte '/') then makeFolders path tree
  else do write path content (← makeFolders (Path.folder path) tree)

end Stencil.Files
