import Stencil.Toml.Statement

/-!
# TOML tables

What the statements of a document build.  A table that is only named on the way
to another one is implied; a later header may still claim it, once.  An array
may be given again, and the last one counts.
-/

namespace Stencil.Toml

/-- A value of a document.  Elements added by headers are kept apart from arrays
that are written out, since only the former can be added to. -/
inductive Value where
  | text (content : List Char)
  | boolean (value : Bool)
  | number
  | moment
  | array (items : List Value)
  | table (entries : List (List Char × Value))
  | elements (tables : List (List (List Char × Value)))
  deriving Inhabited

/-- The entries of a table. -/
abbrev Entries := List (List Char × Value)

/-- Gives a key a value, in place of the one it has. -/
def Entries.put (key : List Char) (value : Value) : Entries → Entries
  | [] => [(key, value)]
  | (other, old) :: entries =>
      if key = other then (key, value) :: entries
      else (other, old) :: Entries.put key value entries

/-- Changes the table at a path, the last element where a part names elements.
Missing tables on the way are made. -/
def Entries.change (path : Key) (f : Entries → Option Entries) (entries : Entries) :
    Option Entries :=
  match path with
  | [] => f entries
  | part :: path =>
      match entries.lookup part with
      | none => (Entries.change path f []).map fun inner => entries.put part (.table inner)
      | some (.table inner) =>
          (Entries.change path f inner).map fun inner => entries.put part (.table inner)
      | some (.elements tables) =>
          match tables.getLast? with
          | none => none
          | some inner =>
              (Entries.change path f inner).map fun inner =>
                entries.put part (.elements (tables.dropLast ++ [inner]))
      | some _ => none

/-- The table at a path, the last element where a part names elements. -/
def Entries.at? (path : Key) (entries : Entries) : Option Entries :=
  match path with
  | [] => some entries
  | part :: path =>
      match entries.lookup part with
      | some (.table inner) => Entries.at? path inner
      | some (.elements tables) => tables.getLast?.bind (Entries.at? path)
      | _ => none

/-- The paths of the tables missing on the way to a table. -/
def Entries.missing (path : Key) (entries : Entries) : List Key :=
  match path with
  | [] => []
  | part :: path =>
      match entries.lookup part with
      | none => [part] :: (Entries.missing path []).map (part :: ·)
      | some (.table inner) => (Entries.missing path inner).map (part :: ·)
      | some (.elements tables) =>
          (Entries.missing path (tables.getLast?.getD [])).map (part :: ·)
      | some _ => []

/-- A document being built. -/
structure Build where
  root : Entries := []
  /-- Tables that are implied and not yet claimed. -/
  implied : List Key := []
  /-- Keys whose latest value is an array. -/
  arrays : List Key := []

namespace Build

/-- Marks a table as implied. -/
def imply (path : Key) (build : Build) : Build :=
  { build with implied := path :: build.implied }

/-- Takes back the mark of an implied table. -/
def claim (path : Key) (build : Build) : Build :=
  { build with implied := build.implied.filter (· ≠ path) }

/-- The key a kind is recorded under: the table itself when the last part is
empty, and the empty key for the document. -/
def kindKey (context : Key) (last : List Char) : Key :=
  let key := if last.isEmpty then context else context ++ [last]
  if key.isEmpty then [[]] else key

/-- Records whether the latest value of a key is an array. -/
def recordKind (context : Key) (last : List Char) (isArray : Bool) (build : Build) : Build :=
  let key := kindKey context last
  let others := build.arrays.filter (· ≠ key)
  { build with arrays := if isArray then key :: others else others }

/-- Gives a key of the table at `context` a value.  A key that has one may only
be an array, which the value replaces, or an implied table, which it claims. -/
def assign (context : Key) (key : List Char) (value : Value) (build : Build) : Option Build := do
  let table ← build.root.at? context
  let path := context ++ [key]
  if (table.lookup key).isNone then
    return { build with root := ← build.root.change context fun entries => entries.put key value }
  else if build.arrays.contains path then
    return { build with
      root := ← build.root.change context fun entries => entries.put key value }.claim path
  else if build.implied.contains path then
    return build.claim path
  else
    none

/-- Opens a table, or a further element where the header says so.  The tables on
the way to it are implied. -/
def openTable (path : Key) (isElement : Bool) (build : Build) : Option Build := do
  let parents := path.dropLast
  let last ← path.getLast?
  let implied := build.root.missing parents
  let root ← build.root.change parents some
  let build := { build with root, implied := implied ++ build.implied }
  if isElement then
    let root ← root.change parents fun entries =>
      match entries.lookup last with
      | none => some (entries.put last (.elements [[]]))
      | some (.elements tables) => some (entries.put last (.elements (tables ++ [[]])))
      | some _ => none
    return { build with root }
  else
    build.assign parents last (.table [])

/-- Opens the tables that a dotted key passes through, one after the other. -/
def openDotted (context : Key) : Key → Build → Option (Key × Build)
  | [], build => some (context, build)
  | part :: parts, build => do
      let context := context ++ [part]
      let build ← (build.imply context).openTable context false
      openDotted context parts build

end Build

mutual

/-- The value of a right-hand side that stands for `key` in the table at
`context`.  A table in braces is built in place. -/
def Expr.build (context : Key) (key : List Char) (inArray : Bool) :
    Expr → Build → Option (Value × Build)
  | .text content, build => some (.text content, build)
  | .boolean value, build => some (.boolean value, build)
  | .number, build => some (.number, build)
  | .moment, build => some (.moment, build)
  | .array items, build => do
      let (items, build) ← Expr.buildItems context key items (build.recordKind context key true)
      return (.array items, build)
  | .inline entries, build => do
      let path := context ++ [key]
      let build ← (build.imply path).openTable path inArray
      let (table, build) ← Expr.buildEntries path entries [] build
      return (.table table, build)

/-- The values of the items of an array. -/
def Expr.buildItems (context : Key) (key : List Char) :
    List Expr → Build → Option (List Value × Build)
  | [], build => some ([], build)
  | item :: items, build => do
      let (value, build) ← Expr.build context key true item build
      let (values, build) ← Expr.buildItems context key items build
      return (value :: values, build)

/-- The entries of a table in braces, added to those before them. -/
def Expr.buildEntries (context : Key) :
    List (Key × Expr) → Entries → Build → Option (Entries × Build)
  | [], table, build => some (table, build)
  | (path, expr) :: entries, table, build => do
      let key ← path.getLast?
      let (inner, build) ← build.openDotted context path.dropLast
      let (value, build) ← Expr.build inner key false expr build
      let build ← build.assign inner key value
      let build := build.recordKind inner key (expr matches .array _)
      let table ← table.change path.dropLast fun entries => entries.put key value
      Expr.buildEntries context entries table build

end

/-- Carries out a statement in the table opened last, and tells which table is
open afterwards. -/
def Statement.run (context : Key) : Statement → Build → Option (Key × Build)
  | .table path, build => do
      let build ← build.openTable path false
      return (path, build.recordKind path [] false)
  | .element path, build => do
      let build ← build.openTable path true
      return (path, build.recordKind path [] false)
  | .entry path expr, build => do
      let key ← path.getLast?
      let (inner, build) ← build.openDotted context path.dropLast
      let (value, build) ← Expr.build inner key false expr build
      let build ← build.assign inner key value
      return (context, build.recordKind inner key (expr matches .array _))

/-- Carries out statements one after the other. -/
def runStatements (context : Key) : List Statement → Build → Option Build
  | [], build => some build
  | statement :: statements, build => do
      let (context, build) ← statement.run context build
      runStatements context statements build

/-- The root table of a document. -/
def tableOf? (statements : List Statement) : Option Entries :=
  (runStatements [] statements {}).map (·.root)

end Stencil.Toml
