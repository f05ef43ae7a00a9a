import Stencil.Digest.Sha256
import Stencil.Engine.Basic
import Stencil.Failure
import Stencil.Path
import Stencil.Text.Quoted

/-!
# Rule files

A rule file is a named list of rules with the symbols they are written in.  It
is the same value whichever format it is stored in; its digest depends on what
the rules do and on nothing else.
-/

namespace Stencil

/-- How a rule file is written down. -/
inductive Format where
  | yaml
  | toml
  deriving DecidableEq

namespace Format

/-- The name of a format. -/
def name : Format → String
  | .yaml => "yaml"
  | .toml => "toml"

/-- The number of a format. -/
def number : Format → Nat
  | .yaml => 0
  | .toml => 1

/-- The format with a number. -/
def ofNumber? : Int → Option Format
  | 0 => some .yaml
  | 1 => some .toml
  | _ => none

/-- The format a path asks for by its extension, in any case. -/
def ofPath (path : Bytes) : Except Failure Format :=
  let extension := (Path.extension path).toLower
  if extension = bytes ".yaml" ∨ extension = bytes ".yml" then .ok .yaml
  else if extension = bytes ".toml" then .ok .toml
  else .error (.inside path (.because .unknownFormat))

end Format

/-- A named list of rules, with symbols of its own if it has any. -/
structure RuleFile where
  name : Bytes := []
  symbols : Option Symbols := none
  strictBlocks : Bool := false
  rules : List Rule := []
  deriving DecidableEq, Inhabited

namespace RuleFile

/-- The first rule without a pattern, with its index. -/
def emptyRule? (rules : List Rule) : Option (Nat × Rule) :=
  (rules.zipIdx.find? fun (rule, _) => rule.pattern.isEmpty).map Prod.swap

/-- What is wrong with a rule file: symbols with an empty mark come first, then
the first rule without a pattern. -/
def fault? (file : RuleFile) : Option Failure :=
  match file.symbols.bind (·.fault?) with
  | some fault => some (.inside (bytes "symbols") (.because (.symbols fault)))
  | none =>
      (emptyRule? file.rules).map fun (index, rule) =>
        .inside (bytes "rule " ++ Bytes.ofNat index ++ bytes " (" ++ rule.name ++ bytes ")")
          (.because .emptyPattern)

/-- The file itself, when nothing is wrong with it. -/
def validated (file : RuleFile) : Except Failure RuleFile :=
  match file.fault? with
  | some failure => .error failure
  | none => .ok file

/-- The options the rules are compiled under. -/
def options (file : RuleFile) : Options :=
  Options.normalized { symbols := file.symbols.getD {}, strictBlocks := file.strictBlocks }

/-- The engine of the rules. -/
def engine (file : RuleFile) : Except Symbols.Fault Engine :=
  Engine.compile file.rules file.options

/-- The text a digest is taken of: the symbols and strictness in force, then
pattern and replacement of every rule, all quoted. -/
def digestText (file : RuleFile) : Bytes :=
  let options := file.options
  let strictness := if options.strictBlocks then "true" else "false"
  Bytes.join [byte ' ']
      [ Quoted.quote options.symbols.sigil, Quoted.quote options.symbols.opener,
        Quoted.quote options.symbols.closer, bytes strictness ] ++
    byte '\n' ::
    file.rules.flatMap fun rule =>
      Quoted.quote rule.pattern ++ byte ' ' :: Quoted.quote rule.replacement ++ [byte '\n']

/-- Identifies what the rules do, whichever format the file is stored in. -/
def digest (file : RuleFile) : Bytes :=
  Sha256.hexDigest file.digestText

/-- A rule file to start from. -/
def sample : RuleFile where
  name := bytes "papagaio"
  symbols := some Symbols.standard
  rules :=
    [ { name := bytes "swap-assignment"
        pattern := bytes "let $name = $value;"
        replacement := bytes "$value -> $name;" },
      { name := bytes "unwrap-call"
        pattern := bytes "call$\x7b(\x7d\x7b)\x7dargs"
        replacement := bytes "invoke[$args]" } ]

end RuleFile

end Stencil
