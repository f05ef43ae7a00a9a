import Stencil.Failure
import Stencil.Files.Node
import Stencil.Path

/-!
# Following paths

A path is followed from the top of a tree, name by name.  Links are replaced by
their targets on the way, at most `maxLinks` of them.  A slash at the end asks
for a folder, as if a `.` stood behind it.

The top is the folder above itself, and nothing is reached from the root: a tree
holds the working folder only.
-/

namespace Stencil.Files

/-- Where a path leads. -/
inductive Spot where
  /-- To a node. -/
  | taken (location : Location)
  /-- To a name that is free in a folder. -/
  | free (location : Location)
  deriving DecidableEq

/-- Why following names comes to a halt. -/
inductive Halt where
  | arrived (spot : Spot)
  | refused (refusal : Refusal)
  /-- At a link in a folder, with the names behind it still to follow. -/
  | link (folder : Location) (name target : Bytes) (rest : List Bytes)

/-- The number of links a path may lead through. -/
def maxLinks : Nat := 40

/-- The names of a path, as steps to take. -/
def steps (path : Bytes) : List Bytes :=
  Path.names path ++ if path.getLast? = some (byte '/') then [Path.here] else []

/-- Takes steps from a folder up to the first link. -/
def advance (tree : Node) : Location → List Bytes → Halt
  | folder, [] => .arrived (.taken folder)
  | folder, name :: rest =>
      if name = Path.here then advance tree folder rest
      else if name = Path.above then advance tree folder.dropLast rest
      else
        match tree.get? (folder ++ [name]) with
        | some (.folder _) => advance tree (folder ++ [name]) rest
        | some (.link target) => .link folder name target rest
        | some (.file _) =>
            if rest.isEmpty then .arrived (.taken (folder ++ [name])) else .refused .notDirectory
        | none =>
            if rest.isEmpty then .arrived (.free (folder ++ [name])) else .refused .notExist

/-- Takes steps from a folder through at most `links` links.  A link at the end
is followed if `last` asks for it. -/
def follow (tree : Node) (last : Bool) : Nat → Location → List Bytes → Except Refusal Spot
  | links, folder, names =>
      match advance tree folder names with
      | .arrived spot => .ok spot
      | .refused refusal => .error refusal
      | .link folder name target rest =>
          if rest.isEmpty && !last then .ok (.taken (folder ++ [name]))
          else
            match links with
            | 0 => .error .tooManyLinks
            | links + 1 =>
                if Path.isAbsolute target then .error .notExist
                else follow tree last links folder (steps target ++ rest)

/-- Where a path leads. -/
def resolve (tree : Node) (last : Bool) (path : Bytes) : Except Refusal Spot :=
  if path.isEmpty || Path.isAbsolute path then .error .notExist
  else follow tree last maxLinks [] (steps path)

/-- The node a path leads to. -/
def find (tree : Node) (last : Bool) (path : Bytes) : Except Refusal Node := do
  match ← resolve tree last path with
  | .free _ => .error .notExist
  | .taken location =>
      match tree.get? location with
      | some node => .ok node
      | none => .error .notExist

end Stencil.Files
