import Stencil.Files.Access
import Stencil.Text.Blank

/-!
# Finding the files to work on

A scan lists the files below a folder, sorted by path.  It does not follow links
and does not enter hidden folders, and it can be limited to some extensions.  A
root that is a file stands for itself.

The paths below a root are cleaned, and a folder is entered by its path.  When a
root goes up again behind a link, its cleaned path can lead to another place, and
then it is there that the folders in the root are looked for.
-/

namespace Stencil

/-- A file that was found. -/
structure Found where
  path : Bytes
  size : Nat
  deriving DecidableEq

namespace Scan

/-- The extensions a scan is limited to: blank ones do not count, and a dot that
is missing is added. -/
def extensions (given : List Bytes) : List Bytes :=
  (given.map Bytes.trim).filterMap fun extension =>
    if extension.isEmpty then none else some (Path.dotted extension)

/-- Whether a file is among those asked for.  Without extensions every file is. -/
def isTarget (extensions : List Bytes) (path : Bytes) : Bool :=
  extensions.isEmpty || extensions.contains (Path.extension path)

/-- Whether a folder is left alone because of its name. -/
def isHidden (name : Bytes) : Bool :=
  decide (1 < name.length) && name.head? == some (byte '.') && name != Path.above

mutual

/-- The files at and below a named node. -/
def atNode (extensions : List Bytes) (name path : Bytes) : Files.Node → List Found
  | .file content => if isTarget extensions path then [⟨path, content.length⟩] else []
  | .link _ => []
  | .folder entries => if isHidden name then [] else below extensions path entries

/-- The files below a folder. -/
def below (extensions : List Bytes) (folder : Bytes) : List (Bytes × Files.Node) → List Found
  | [] => []
  | (name, node) :: entries =>
      atNode extensions name (Path.join folder name) node ++ below extensions folder entries

end

/-- The files at and below an entry of a root.  Further down, the paths of the entries
are cleaned already and lead to the entries themselves. -/
def atEntry (tree : Files.Node) (extensions : List Bytes) (root name : Bytes)
    (node : Files.Node) : Except Failure (List Found) :=
  if node.isFolder && !isHidden name then do
    return below extensions (Path.join root name) (← Files.list tree (Path.join root name))
  else
    .ok (atNode extensions name (Path.join root name) node)

/-- The files at and below a root. -/
def atRoot (tree : Files.Node) (extensions : List Bytes) (root : Bytes) :
    Files.Node → Except Failure (List Found)
  | .file content => .ok [⟨root, content.length⟩]
  | .link _ => .ok []
  | .folder entries => do
      let found ← entries.mapM fun entry => atEntry tree extensions root entry.1 entry.2
      return found.flatten.mergeSort fun left right => Bytes.le left.path right.path

/-- Scans one root. -/
def scanRoot (tree : Files.Node) (extensions : List Bytes) (root : Bytes) :
    Except Failure (List Found) := do
  atRoot tree (Scan.extensions extensions) root (← Files.inspect tree root)

/-- Leaves out what was found before. -/
def distinct (found : List Found) : List Found :=
  found.foldl
    (fun seen file => if seen.any (·.path == file.path) then seen else seen ++ [file]) []

/-- The files at and below every root, in the order of the roots. -/
def scan (tree : Files.Node) (roots extensions : List Bytes) : Except Failure (List Found) := do
  let found ← roots.mapM (scanRoot tree extensions)
  return distinct found.flatten

end Scan

end Stencil
