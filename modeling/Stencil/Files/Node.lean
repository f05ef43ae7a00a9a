import Stencil.Keyed

/-!
# File trees

A file tree is a value: a folder with its files, links and folders, down to the
last one.  A location is the list of names that leads to a place in it; unlike a
path it never goes through a link or back up.
-/

namespace Stencil.Files

/-- What stands at a place of a file tree. -/
inductive Node where
  | file (content : Bytes)
  /-- Stands for whatever its target leads to. -/
  | link (target : Bytes)
  | folder (entries : List (Bytes × Node))
  deriving Inhabited

/-- The names that lead from the top of a tree to a place in it. -/
abbrev Location := List Bytes

namespace Node

/-- Whether the node is a folder. -/
def isFolder : Node → Bool
  | .folder _ => true
  | _ => false

/-- The node at a location. -/
def get? : Node → Location → Option Node
  | node, [] => some node
  | .folder entries, name :: location =>
      match Keyed.get? entries name with
      | some node => node.get? location
      | none => none
  | _, _ :: _ => none

/-- Puts a node at a location.  Nothing happens where the location does not lie
in a folder. -/
def put : Node → Location → Node → Node
  | _, [], new => new
  | .folder entries, [name], new => .folder (Keyed.put name new entries)
  | .folder entries, name :: location, new =>
      match Keyed.get? entries name with
      | some node => .folder (Keyed.put name (node.put location new) entries)
      | none => .folder entries
  | node, _ :: _, _ => node

/-- Takes the node at a location out, with everything below it.  The top stays. -/
def erase : Node → Location → Node
  | node, [] => node
  | .folder entries, [name] => .folder (Keyed.erase entries name)
  | .folder entries, name :: location =>
      match Keyed.get? entries name with
      | some node => .folder (Keyed.put name (node.erase location) entries)
      | none => .folder entries
  | node, _ :: _ => node

mutual

/-- The files of a node at a location, with their locations. -/
def filesFrom (location : Location) : Node → List (Location × Bytes)
  | .file content => [(location, content)]
  | .link _ => []
  | .folder entries => filesOfEntries location entries

/-- The files of the entries of a folder at a location. -/
def filesOfEntries (location : Location) : List (Bytes × Node) → List (Location × Bytes)
  | [] => []
  | (name, node) :: entries =>
      filesFrom (location ++ [name]) node ++ filesOfEntries location entries

end

/-- All files of a tree with their paths, sorted by path. -/
def listing (tree : Node) : List (Bytes × Bytes) :=
  let files := (filesFrom [] tree).map fun (location, content) =>
    (Bytes.join [byte '/'] location, content)
  files.mergeSort fun left right => Bytes.le left.1 right.1

end Node

end Stencil.Files
