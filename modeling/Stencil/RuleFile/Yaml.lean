import Stencil.RuleFile.Basic
import Stencil.Yaml.Lexer
import Stencil.Yaml.Node
import Stencil.Yaml.Style

/-!
# Rule files in YAML

Reading takes a rule file from the first document of a stream.  A string field
keeps the text of any scalar; null leaves a field as it is and drops out of a
list.  Keys of no field are passed over, a key must not be given twice, and
merged mappings fill in what is not given.  Writing leaves out what is empty and
indents by four.
-/

namespace Stencil.RuleFile.Yaml

open Stencil.Yaml

/-- The text of a scalar, or nothing for null.  The outer result is missing when
the content is not what the tag asks for. -/
def scalarText? (tag : Tag) (content : List Char) : Option (Option Bytes) :=
  if !tag.admits content then none
  else
    match tag with
    | .null => some none
    | .binary => (Base64.decode? (Utf8.encode content)).map some
    | _ => some (some (Utf8.encode content))

/-- Reads a node as text; null is the empty text. -/
def text? (document : Document) (node : Node) : Option Bytes := do
  match ← document.resolve? node with
  | .scalar tag content => return (← scalarText? tag content).getD []
  | _ => none

/-- Reads a node as a boolean; null is false.  Strings may use the older words. -/
def boolean? (document : Document) (node : Node) : Option Bool := do
  match ← document.resolve? node with
  | .scalar tag content =>
      match tag, ← scalarText? tag content with
      | _, none => return false
      | .boolean, _ => return ["true", "True", "TRUE"].contains (String.ofList content)
      | .string, some text | .merge, some text | .binary, some text | .other, some text =>
          oldBoolean? (← String.fromUTF8? (ByteArray.mk text.toArray))
      | _, _ => none
  | _ => none

/-- Two keys that count as one: of one kind and written alike. -/
def sameKey : Node → Node → Bool
  | .scalar _ a, .scalar _ b => a == b
  | .alias a _, .alias b _ => a == b
  | .sequence _, .sequence _ => true
  | .mapping _ _, .mapping _ _ => true
  | _, _ => false

/-- No two keys of a mapping count as one. -/
def distinctKeys : List (Node × Node) → Bool
  | [] => true
  | (key, _) :: entries => !entries.any (fun (other, _) => sameKey key other) && distinctKeys entries

/-- A key that merges other mappings. -/
def isMerge : Node → Bool
  | .scalar .merge ['<', '<'] => true
  | _ => false

/-- The named entries of a mapping in order.  A null key names nothing, and a key
that is no scalar cannot be read. -/
def named? (document : Document) : List (Node × Node) → Option (List (Bytes × Node))
  | [] => some []
  | (key, value) :: entries => do
      if isMerge key then named? document entries
      else
        match ← document.resolve? key with
        | .scalar tag content =>
            let name ← scalarText? tag content
            let later ← named? document entries
            match name with
            | none => return later
            | some name => return (name, value) :: later
        | _ => none

/-- The entries whose names are not taken yet; each takes its name. -/
def untaken (taken : List Bytes) : List (Bytes × Node) → List (Bytes × Node)
  | [] => []
  | (name, value) :: entries =>
      if taken.contains name then untaken taken entries
      else (name, value) :: untaken (name :: taken) entries

/-- The mappings that a merge key asks for. -/
def mergeSources? (document : Document) : Node → Option (List Node)
  | .sequence items => items.mapM (mapping? document)
  | node => (mapping? document node).map ([·])
where
  mapping? (document : Document) (node : Node) : Option Node := do
    match ← document.resolve? node with
    | .mapping isNull entries => return .mapping isNull entries
    | _ => none

mutual

/-- The named entries that a merged mapping adds to those whose names are
taken. -/
def mergedEntries? (document : Document) :
    Nat → List Bytes → Node → Option (List (Bytes × Node))
  | budget + 1, taken, .mapping _ entries => do
      guard (distinctKeys entries)
      let own := untaken taken (← named? document entries)
      let taken := own.map (·.1) ++ taken
      match entries.find? fun (key, _) => isMerge key with
      | none => return own
      | some (_, source) =>
          return own ++ (← mergedAll? document budget taken (← mergeSources? document source))
  | _, _, _ => none

/-- The named entries that several merged mappings add, one after the other. -/
def mergedAll? (document : Document) :
    Nat → List Bytes → List Node → Option (List (Bytes × Node))
  | _, _, [] => some []
  | 0, _, _ :: _ => none
  | budget + 1, taken, source :: sources => do
      let first ← mergedEntries? document budget taken source
      let later ← mergedAll? document budget (first.map (·.1) ++ taken) sources
      return first ++ later

end

/-- The named entries of a mapping with those it merges.  None of the `fields`
may be given twice. -/
def entries? (document : Document) (fields : List String) (entries : List (Node × Node)) :
    Option (List (Bytes × Node)) := do
  guard (distinctKeys entries)
  let own ← named? document entries
  guard (fields.all fun field => (own.filter (·.1 == bytes field)).length ≤ 1)
  match entries.find? fun (key, _) => isMerge key with
  | none => return own
  | some (_, source) =>
      let budget := 2 * (size document.root + document.anchored.length) + 4
      return own ++
        (← mergedAll? document budget (own.map (·.1)) (← mergeSources? document source))
where
  /-- The number of nodes of a tree. -/
  size : Node → Nat
    | .scalar _ _ => 1
    | .alias _ _ => 1
    | .sequence items => 1 + sizeAll items
    | .mapping _ entries => 1 + sizePairs entries
  sizeAll : List Node → Nat
    | [] => 0
    | node :: nodes => size node + sizeAll nodes
  sizePairs : List (Node × Node) → Nat
    | [] => 0
    | (key, value) :: entries => size key + size value + sizePairs entries

/-- The value of a field, if it is given. -/
def field? (name : String) (entries : List (Bytes × Node)) : Option Node :=
  entries.lookup (bytes name)

/-- The text of a field; empty when it is not given. -/
def textField? (document : Document) (name : String) (entries : List (Bytes × Node)) :
    Option Bytes :=
  match field? name entries with
  | none => some []
  | some node => text? document node

/-- Reads a mapping as symbols. -/
def symbols? (document : Document) (node : Node) : Option (Option Symbols) := do
  match ← document.resolve? node with
  | .scalar tag content => if (← scalarText? tag content).isNone then return none else none
  | .mapping false entries =>
      let entries ← entries? document ["sigil", "open", "close"] entries
      let sigil ← textField? document "sigil" entries
      let opener ← textField? document "open" entries
      let closer ← textField? document "close" entries
      return some { sigil, opener, closer }
  | _ => none

/-- Reads a mapping as a rule; null is none. -/
def rule? (document : Document) (node : Node) : Option (Option Rule) := do
  match ← document.resolve? node with
  | .scalar tag content => if (← scalarText? tag content).isNone then return none else none
  | .mapping _ entries =>
      let entries ← entries? document ["name", "pattern", "replacement"] entries
      let name ← textField? document "name" entries
      let pattern ← textField? document "pattern" entries
      let replacement ← textField? document "replacement" entries
      return some { name, pattern, replacement }
  | _ => none

/-- Reads a sequence as rules. -/
def rules? (document : Document) (node : Node) : Option (List Rule) := do
  match ← document.resolve? node with
  | .scalar tag content => if (← scalarText? tag content).isNone then return [] else none
  | .sequence items => return (← items.mapM (rule? document)).filterMap id
  | _ => none

/-- Reads a mapping as a rule file; null is the empty one. -/
def file? (document : Document) : Option RuleFile := do
  match document.root with
  | .scalar tag content => if (← scalarText? tag content).isNone then return {} else none
  | .mapping _ entries =>
      let entries ← entries? document ["name", "symbols", "strict_blocks", "rules"] entries
      let name ← textField? document "name" entries
      let symbols ←
        match field? "symbols" entries with
        | none => some none
        | some node => symbols? document node
      let strictBlocks ←
        match field? "strict_blocks" entries with
        | none => some false
        | some node => boolean? document node
      let rules ←
        match field? "rules" entries with
        | none => some []
        | some node => rules? document node
      return { name, symbols, strictBlocks, rules }
  | _ => none

/-- Reads the first document of a stream as a rule file. -/
def read? (text : Bytes) : Option RuleFile := do
  match ← document? (tokens (← source? text)) with
  | none => return {}
  | some document => file? document

/-- An entry with a string, whose further lines are indented. -/
def entry (indent : Nat) (key : String) (value : Bytes) : List Char :=
  key.toList ++ ": ".toList ++ scalarLine indent value

/-- The entries of the symbols. -/
def writeSymbols (symbols : Symbols) : List Char :=
  "symbols:\n    ".toList ++ entry 8 "sigil" symbols.sigil ++
    "    ".toList ++ entry 8 "open" symbols.opener ++
    "    ".toList ++ entry 8 "close" symbols.closer

/-- The item of a rule. -/
def writeRule (rule : Rule) : List Char :=
  "    - ".toList ++
    (if rule.name.isEmpty then [] else entry 8 "name" rule.name ++ "      ".toList) ++
    entry 8 "pattern" rule.pattern ++ "      ".toList ++
    entry 8 "replacement" rule.replacement

/-- A rule file as a stream. -/
def write (file : RuleFile) : Bytes :=
  Utf8.encode <|
    (if file.name.isEmpty then [] else entry 4 "name" file.name) ++
    (match file.symbols with
      | none => []
      | some symbols => writeSymbols symbols) ++
    (if file.strictBlocks then "strict_blocks: true\n".toList else []) ++
    (if file.rules.isEmpty then "rules: []\n".toList
      else "rules:\n".toList ++ file.rules.flatMap writeRule)

end Stencil.RuleFile.Yaml
