import Stencil.Text.Bytes

/-!
# Paths

A path is a text in which slashes stand between names.  A cleaned path is the
shortest one that leads to the same place when there are no links: it has no
empty names, no `.` and no `..` behind a name.
-/

namespace Stencil.Path

/-- The name that stands for the folder itself. -/
def here : Bytes := bytes "."

/-- The name that stands for the folder above. -/
def above : Bytes := bytes ".."

/-- Whether a path begins at the root. -/
def isAbsolute (path : Bytes) : Bool :=
  path.head? == some (byte '/')

/-- The names between the slashes. -/
def names (path : Bytes) : List Bytes :=
  (Bytes.splitOn (byte '/') path).filter fun name => !name.isEmpty

/-- Takes one more name onto the names cleaned so far, the last of them first.
Above the root there is only the root. -/
def push (absolute : Bool) (cleaned : List Bytes) (name : Bytes) : List Bytes :=
  if name = here then cleaned
  else if name = above then
    match cleaned with
    | [] => if absolute then [] else [above]
    | last :: rest => if last = above then above :: cleaned else rest
  else name :: cleaned

/-- The names of the cleaned path. -/
def cleanNames (path : Bytes) : List Bytes :=
  ((names path).foldl (push (isAbsolute path)) []).reverse

/-- The cleaned path. -/
def clean (path : Bytes) : Bytes :=
  let text := Bytes.join [byte '/'] (cleanNames path)
  if isAbsolute path then byte '/' :: text
  else if text.isEmpty then here
  else text

/-- The cleaned path of a name in a folder. -/
def join (folder name : Bytes) : Bytes :=
  if folder.isEmpty then (if name.isEmpty then [] else clean name)
  else clean (folder ++ byte '/' :: name)

/-- The last name of a path. -/
def base (path : Bytes) : Bytes :=
  match (names path).getLast? with
  | some name => name
  | none => if path.isEmpty then here else [byte '/']

/-- The folder a path is in, cleaned. -/
def folder (path : Bytes) : Bytes :=
  clean (path.reverse.dropWhile (· != byte '/')).reverse

/-- The beginnings of a text, put behind what is done, that a slash and a name
follow. -/
def parentsFrom (done : Bytes) : Bytes → List Bytes
  | [] | [_] => []
  | b :: c :: text =>
      let others := parentsFrom (done ++ [b]) (c :: text)
      if b = byte '/' ∧ c ≠ byte '/' then done :: others else others

/-- The folders a path leads through as it spells them, the outermost first. -/
def parents (path : Bytes) : List Bytes :=
  (parentsFrom [] path).filter fun folder => !folder.isEmpty

/-- The end of a path from the last dot of its last name on, or nothing when
there is no dot. -/
def extension (path : Bytes) : Bytes :=
  let last := path.reverse.takeWhile (· != byte '/')
  if last.contains (byte '.') then
    byte '.' :: (last.takeWhile (· != byte '.')).reverse
  else
    []

/-- An extension, with the dot it begins with added where it is missing. -/
def dotted (extension : Bytes) : Bytes :=
  if extension.head? = some (byte '.') then extension else byte '.' :: extension

end Stencil.Path
