import Stencil.Text.Bytes

/-!
# Rules

A rule pairs a pattern with the template that replaces what it matches.
-/

namespace Stencil

/-- A pattern and its replacement template, in source form. -/
structure Rule where
  name : Bytes := []
  pattern : Bytes := []
  replacement : Bytes := []
  deriving DecidableEq, Inhabited

/-- What a rule is called in counts and reports: its name, or its pattern when
it has none. -/
def Rule.label (rule : Rule) : Bytes :=
  if rule.name.isEmpty then rule.pattern else rule.name

end Stencil
