import Stencil.Pattern.Compile
import Stencil.Text.Quoted

/-!
# Describing patterns

A readable account of the tokens of a pattern.
-/

namespace Stencil

/-- The kinds of tokens. -/
inductive Token.Kind where
  | literal
  | variable
  | block
  | blocks
  | space
  deriving DecidableEq

namespace Token.Kind

/-- The name of a kind. -/
def name : Kind → String
  | .literal => "Literal"
  | .variable => "Variable"
  | .block => "Block"
  | .blocks => "BlockSeq"
  | .space => "Whitespace"

/-- The kind with a number. -/
def ofNumber? : Int → Option Kind
  | 0 => some .literal
  | 1 => some .variable
  | 2 => some .block
  | 3 => some .blocks
  | 4 => some .space
  | _ => none

end Token.Kind

/-- The kind of a token. -/
def Token.kind (token : Token) : Token.Kind :=
  match token.element with
  | .literal => .literal
  | .variable _ => .variable
  | .block _ _ => .block
  | .blocks _ _ => .blocks
  | .space => .space

/-- The name of the kind of a token. -/
def Token.kindName (token : Token) : String :=
  token.kind.name

/-- What a token asks for, in words. -/
def Token.describe (token : Token) : Bytes :=
  let inParens (inside : Bytes) : Bytes :=
    bytes token.kindName ++ byte '(' :: inside ++ [byte ')']
  let named (reference : Reference) : Bytes :=
    reference.name.text ++ (if reference.optional then [byte '?'] else [])
  match token.element with
  | .literal => inParens (Quoted.quote token.text.text)
  | .space => bytes token.kindName
  | .variable reference => inParens (named reference)
  | .block reference delimiters | .blocks reference delimiters =>
      inParens (Bytes.join [byte ' ']
        [Quoted.quote delimiters.opener, Quoted.quote delimiters.closer, named reference])

/-- What the tokens of a pattern ask for, in order. -/
def Pattern.describe (pattern : Pattern) : Bytes :=
  Bytes.join [byte ' '] (pattern.tokens.map (·.describe))

end Stencil
