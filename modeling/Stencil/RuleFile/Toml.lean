import Stencil.RuleFile.Basic
import Stencil.Toml.Parse
import Stencil.Toml.Table

/-!
# Rule files in TOML

Reading takes a rule file from the root table of a document.  Keys are matched
without regard to case, keys of no field are passed over, and a value of the
wrong kind makes the document unreadable.  Writing gives every field, rules as
table elements, with all strings on one line.
-/

namespace Stencil.RuleFile.Toml

open Stencil.Toml

/-- The small letter a character folds to.  Two characters outside ASCII fold to
ASCII letters. -/
def fold (char : Char) : Char :=
  if char == '\u017f' then 's' else if char == '\u212a' then 'k' else char.toLower

/-- The key names a field, in any case. -/
def names (field : String) (key : List Char) : Bool :=
  key.map fold == field.toList

/-- The content of a string. -/
def text? : Value → Option Bytes
  | .text content => some (Utf8.encode content)
  | _ => none

/-- The value of a boolean. -/
def boolean? : Value → Option Bool
  | .boolean value => some value
  | _ => none

/-- Reads entries one after the other into a value. -/
def readEntries? {α : Type} (add? : α → List Char × Value → Option α) (start : α)
    (entries : Entries) : Option α :=
  entries.foldlM add? start

/-- Reads an entry of the symbols. -/
def addToSymbols? (symbols : Symbols) : List Char × Value → Option Symbols
  | (key, value) =>
      if names "sigil" key then (text? value).map fun sigil => { symbols with sigil }
      else if names "open" key then (text? value).map fun opener => { symbols with opener }
      else if names "close" key then (text? value).map fun closer => { symbols with closer }
      else some symbols

/-- Reads an entry of a rule. -/
def addToRule? (rule : Rule) : List Char × Value → Option Rule
  | (key, value) =>
      if names "name" key then (text? value).map fun name => { rule with name }
      else if names "pattern" key then (text? value).map fun pattern => { rule with pattern }
      else if names "replacement" key then
        (text? value).map fun replacement => { rule with replacement }
      else some rule

/-- Reads a table as symbols. -/
def symbols? : Value → Option Symbols
  | .table entries => readEntries? addToSymbols? {} entries
  | _ => none

/-- Reads a table as a rule. -/
def rule? : Value → Option Rule
  | .table entries => readEntries? addToRule? {} entries
  | _ => none

/-- Reads an array of tables, written out or by headers, as rules. -/
def rules? : Value → Option (List Rule)
  | .array items => items.mapM rule?
  | .elements tables => tables.mapM (readEntries? addToRule? {})
  | _ => none

/-- Reads an entry of a rule file. -/
def addToFile? (file : RuleFile) : List Char × Value → Option RuleFile
  | (key, value) =>
      if names "name" key then (text? value).map fun name => { file with name }
      else if names "symbols" key then
        (symbols? value).map fun symbols => { file with symbols := some symbols }
      else if names "strict_blocks" key then
        (boolean? value).map fun strictBlocks => { file with strictBlocks }
      else if names "rules" key then (rules? value).map fun rules => { file with rules }
      else some file

/-- Reads a document as a rule file. -/
def read? (text : Bytes) : Option RuleFile := do
  let statements ← parse? text
  let root ← tableOf? statements
  readEntries? addToFile? {} root

/-- The form of one byte inside a string. -/
def quotedByte (b : UInt8) : Bytes :=
  if b == byte '"' then bytes "\\\""
  else if b == byte '\\' then bytes "\\\\"
  else if b == 0x08 then bytes "\\b"
  else if b == byte '\t' then bytes "\\t"
  else if b == byte '\n' then bytes "\\n"
  else if b == 0x0C then bytes "\\f"
  else if b == byte '\r' then bytes "\\r"
  else if b < 0x20 || b == 0x7F then bytes "\\u" ++ Hex.digits Hex.lowerDigit 4 b.toNat
  else [b]

/-- A string on one line. -/
def quoted (text : Bytes) : Bytes :=
  byte '"' :: text.flatMap quotedByte ++ [byte '"']

/-- A line with an entry, indented. -/
def entryLine (indent key : String) (value : Bytes) : Bytes :=
  bytes indent ++ bytes key ++ bytes " = " ++ value ++ [byte '\n']

/-- The table of the symbols. -/
def writeSymbols (symbols : Symbols) : Bytes :=
  bytes "\n[symbols]\n" ++ entryLine "  " "sigil" (quoted symbols.sigil) ++
    entryLine "  " "open" (quoted symbols.opener) ++
    entryLine "  " "close" (quoted symbols.closer)

/-- The table of a rule. -/
def writeRule (rule : Rule) : Bytes :=
  bytes "\n[[rules]]\n" ++ entryLine "  " "name" (quoted rule.name) ++
    entryLine "  " "pattern" (quoted rule.pattern) ++
    entryLine "  " "replacement" (quoted rule.replacement)

/-- A rule file as a document. -/
def write (file : RuleFile) : Bytes :=
  entryLine "" "name" (quoted file.name) ++
    entryLine "" "strict_blocks" (bytes (if file.strictBlocks then "true" else "false")) ++
    (match file.symbols with
      | none => []
      | some symbols => writeSymbols symbols) ++
    file.rules.flatMap writeRule

end Stencil.RuleFile.Toml
