/-!
# TOML statements

A document is a list of statements: table headers, headers of table elements,
and entries.  Statements are what is written; what they build is a matter of
`Toml.Table`.  Of numbers and dates only the presence is kept, since no rule
file holds one.
-/

namespace Stencil.Toml

/-- A dotted key, outermost part first. -/
abbrev Key := List (List Char)

/-- The right-hand side of an entry. -/
inductive Expr where
  | text (content : List Char)
  | boolean (value : Bool)
  | number
  | moment
  | array (items : List Expr)
  /-- A table in braces. -/
  | inline (entries : List (Key × Expr))

/-- One statement of a document. -/
inductive Statement where
  /-- A header `[key]`. -/
  | table (key : Key)
  /-- A header `[[key]]`. -/
  | element (key : Key)
  /-- An entry `key = value`. -/
  | entry (key : Key) (value : Expr)

end Stencil.Toml
