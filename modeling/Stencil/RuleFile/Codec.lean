import Stencil.RuleFile.Toml
import Stencil.RuleFile.Yaml

/-!
# Storing rule files

One reader and one writer for both formats.  A file that is read is also
checked.
-/

namespace Stencil.RuleFile

/-- Reads and checks a rule file. -/
def parse (format : Format) (text : Bytes) : Except Failure RuleFile :=
  match format with
  | .yaml =>
      match Yaml.read? text with
      | none => .error (.because .malformedYaml)
      | some file => file.validated
  | .toml =>
      match Toml.read? text with
      | none => .error (.because .malformedToml)
      | some file => file.validated

/-- Writes a rule file. -/
def encode (format : Format) (file : RuleFile) : Bytes :=
  match format with
  | .yaml => Yaml.write file
  | .toml => Toml.write file

end Stencil.RuleFile
