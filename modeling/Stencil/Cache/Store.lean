import Stencil.Cache.Basic
import Stencil.Files.Access

/-!
# Storing a cache

The entries of a cache are kept in one file.  It begins with a heading; behind
it the four fields of every entry follow, each ended by a zero byte.  A zero in a
field is escaped, so that every text can be stored.
-/

namespace Stencil.Cache

/-- The name of the file the entries are kept in. -/
def fileName : Bytes := bytes "papagaio_cache.gob"

/-- What the file begins with. -/
def heading : Bytes := bytes "entries by path\n"

/-- A text without zero bytes that stands for any text. -/
def escape : Bytes → Bytes
  | [] => []
  | b :: text =>
      if b = 0 then 1 :: 1 :: escape text
      else if b = 1 then 1 :: 2 :: escape text
      else b :: escape text

/-- The first field of a text, and what follows it. -/
def field? : Bytes → Option (Bytes × Bytes)
  | [] => none
  | [b] => if b = 0 then some ([], []) else none
  | b :: c :: text =>
      if b = 0 then some ([], c :: text)
      else if b = 1 then
        if c = 1 then (field? text).map fun (field, rest) => (0 :: field, rest)
        else if c = 2 then (field? text).map fun (field, rest) => (1 :: field, rest)
        else none
      else (field? (c :: text)).map fun (field, rest) => (b :: field, rest)

/-- A number in base 256, the lowest digit first. -/
def numeral (n : Nat) : Bytes :=
  if n = 0 then [] else (n % 256).toUInt8 :: numeral (n / 256)

/-- The number of a numeral in base 256. -/
def number (digits : Bytes) : Nat :=
  digits.foldr (fun digit n => digit.toNat + 256 * n) 0

/-- An entry as it is stored. -/
def entryText (path : Bytes) (entry : Entry) : Bytes :=
  [path, entry.hash, entry.digest, numeral entry.recordedAt].flatMap fun field =>
    escape field ++ [0]

/-- The first entry of a text, and what follows it. -/
def entryFrom? (text : Bytes) : Option ((Bytes × Entry) × Bytes) := do
  let (path, text) ← field? text
  let (hash, text) ← field? text
  let (digest, text) ← field? text
  let (time, text) ← field? text
  return ((path, ⟨hash, digest, number time⟩), text)

/-- At most `budget` entries that make up a text. -/
def entriesFrom? : Nat → Bytes → Option (Keyed Entry)
  | _, [] => some []
  | 0, _ :: _ => none
  | budget + 1, text => do
      let (entry, text) ← entryFrom? text
      return entry :: (← entriesFrom? budget text)

/-- The entries as they are stored. -/
def encode (entries : Keyed Entry) : Bytes :=
  heading ++ entries.flatMap fun (path, entry) => entryText path entry

/-- The entries that a text stores. -/
def decode? (text : Bytes) : Option (Keyed Entry) :=
  if heading.isPrefixOf text then
    entriesFrom? text.length (text.drop heading.length)
  else
    none

/-- The path of the file the entries are kept in. -/
def file (cache : Cache) : Bytes :=
  Path.join cache.folder fileName

/-- The entries stored in a file; none when there is no such file. -/
def stored (tree : Files.Node) (path : Bytes) : Except Failure (Keyed Entry) :=
  match Files.find tree true path with
  | .error .notExist => .ok []
  | .error refusal =>
      .error (.inside (bytes "failed to open cache file") (Files.refused "open" path refusal))
  | .ok (.file content) =>
      match decode? content with
      | some entries => .ok entries
      | none => .error (.because .malformedCache)
  | .ok _ => .error (.because .malformedCache)

/-- The cache stored in a folder, which is made if need be. -/
def load (folder : Bytes) (maxAge : Int) (tree : Files.Node) :
    Except Failure (Cache × Files.Node) :=
  match Files.makeFolders folder tree with
  | .error failure => .error (.inside (bytes "failed to create cache directory") failure)
  | .ok tree =>
      let cache : Cache := { folder, maxAge }
      match stored tree cache.file with
      | .error failure => .error (.inside (bytes "failed to load cache") failure)
      | .ok entries => .ok ({ cache with entries }, tree)

/-- What storing a cache leaves behind. -/
structure Saved where
  cache : Cache
  tree : Files.Node
  failure : Option Failure := none

/-- The steps in which the entries are stored: a new file is made in the folder, filled
and closed, and takes the place of the old one. -/
inductive Step where
  | creating
  | encoding
  | closing
  | replacing

/-- What the wording of a failure at a step begins with. -/
def Step.context : Step → Bytes
  | .creating => bytes "failed to create cache file"
  | .encoding => bytes "failed to encode cache file"
  | .closing => bytes "failed to write cache file"
  | .replacing => bytes "failed to replace cache file"

/-- Stores the entries, if something changed.  A folder never gives way to the new
file. -/
def save (cache : Cache) (tree : Files.Node) : Saved :=
  let failed (step : Step) (failure : Failure) : Saved :=
    ⟨cache, tree, some (.inside step.context failure)⟩
  if !cache.dirty then ⟨cache, tree, none⟩
  else
    match Files.find tree true cache.folder with
    | .error refusal => failed .creating (Files.refused "open" cache.folder refusal)
    | .ok (.file _) | .ok (.link _) =>
        failed .creating (Files.refused "open" cache.folder .notDirectory)
    | .ok (.folder _) =>
        match Files.resolve tree false cache.file with
        | .error refusal => failed .replacing (Files.refused "rename" cache.file refusal)
        | .ok (.free location) | .ok (.taken location) =>
            match tree.get? location with
            | some (.folder _) =>
                failed .replacing (Files.refused "rename" cache.file .exists)
            | _ =>
                ⟨{ cache with dirty := false },
                  tree.put location (.file (encode cache.entries)), none⟩

/-- A failure that is not the tree's, such as a full disk. -/
structure Fault where
  step : Step
  cause : Failure
  /-- What the name of the new file ends in. -/
  suffix : Bytes
  /-- How much of the text the new file holds. -/
  written : Nat

/-- The location of the new file, if it can be made there. -/
def draft? (cache : Cache) (suffix : Bytes) (tree : Files.Node) : Option Files.Location :=
  match Files.resolve tree true cache.folder with
  | .ok (.taken folder) =>
      let draft := folder ++ [fileName ++ byte '.' :: suffix]
      match tree.get? folder, tree.get? draft with
      | some (.folder _), none => some draft
      | _, _ => none
  | _ => none

/-- Stores the entries up to a step that fails.  The new file is taken away again. -/
def saveFailing (fault : Fault) (cache : Cache) (tree : Files.Node) : Saved :=
  let failed (step : Step) (tree : Files.Node) : Saved :=
    ⟨cache, tree, some (.inside step.context fault.cause)⟩
  if !cache.dirty then ⟨cache, tree, none⟩
  else
    match cache.draft? fault.suffix tree, fault.step with
    | none, _ | some _, .creating => failed .creating tree
    | some draft, step =>
        let text := (encode cache.entries).take fault.written
        failed step ((tree.put draft (.file text)).erase draft)

end Stencil.Cache
