import Stencil.Text.Timestamp

/-!
# What a plain scalar stands for

A plain scalar may read as null, a boolean, a number or a date; everything else
is a string.  The same rules tell a writer which strings need quotes.
-/

namespace Stencil.Yaml

/-- What a node stands for. -/
inductive Tag where
  | string
  | boolean
  | integer
  | fraction
  | null
  | timestamp
  /-- A key that merges other mappings. -/
  | merge
  /-- Bytes in base 64. -/
  | binary
  /-- Any other tag, which changes nothing about a scalar. -/
  | other
  deriving DecidableEq

namespace Tag

/-- The words with a meaning of their own. -/
def ofWord? (text : String) : Option Tag :=
  if ["", "~", "null", "Null", "NULL"].contains text then some .null
  else if ["true", "True", "TRUE", "false", "False", "FALSE"].contains text then some .boolean
  else if [".nan", ".NaN", ".NAN", ".inf", ".Inf", ".INF", "+.inf", "+.Inf", "+.INF", "-.inf",
      "-.Inf", "-.INF"].contains text then some .fraction
  else none

/-- The text is an integer of sixty-four bits, with or without a sign. -/
def isInteger (text : List Char) : Bool :=
  (Numeral.signed? Numeral.prefixed? text).isSome ||
    (Numeral.prefixed? text).any (· < Numeral.wordLimit)

/-- The text is an integer with its sign behind the mark of its base. -/
def isMarkedInteger (text : List Char) : Bool :=
  let within (base : Nat) (digits : List Char) : Bool :=
    (Numeral.signed? (Numeral.positional? base) digits).isSome
  match text with
  | '0' :: 'b' :: digits => within 2 digits
  | '-' :: '0' :: 'b' :: digits => within 2 ('-' :: digits)
  | '0' :: 'o' :: digits => within 8 digits
  | '-' :: '0' :: 'o' :: digits => within 8 ('-' :: digits)
  | _ => false

/-- The tag of a text that begins with a digit or a sign.  Underscores do not
count. -/
def ofNumber (dates : Bool) (text : List Char) : Tag :=
  let digits := text.filter (· != '_')
  if dates && Timestamp.isShort text then .timestamp
  else if isInteger digits then .integer
  else if Numeral.isDecimal digits then .fraction
  else if isMarkedInteger digits then .integer
  else .string

/-- The tag of a text; `dates` says whether dates count. -/
def ofText (dates : Bool) (text : List Char) : Tag :=
  match ofWord? (String.ofList text) with
  | some tag => tag
  | none =>
      match text with
      | [] => .null
      | '.' :: _ =>
          if Numeral.underscoresBetween Numeral.isDigit text &&
              Numeral.isDecimal (text.filter (· != '_')) then .fraction
          else .string
      | char :: _ =>
          if Numeral.isDigit char || char == '+' || char == '-' then ofNumber dates text
          else .string

/-- The tag a name stands for, in its full or its short form. -/
def ofName (name : String) : Tag :=
  match name with
  | "!!str" | "tag:yaml.org,2002:str" => .string
  | "!!bool" | "tag:yaml.org,2002:bool" => .boolean
  | "!!int" | "tag:yaml.org,2002:int" => .integer
  | "!!float" | "tag:yaml.org,2002:float" => .fraction
  | "!!null" | "tag:yaml.org,2002:null" => .null
  | "!!timestamp" | "tag:yaml.org,2002:timestamp" => .timestamp
  | "!!merge" | "tag:yaml.org,2002:merge" => .merge
  | "!!binary" | "tag:yaml.org,2002:binary" => .binary
  | _ => .other

/-- The tag of a scalar without one. -/
def ofScalar (plain : Bool) (content : List Char) : Tag :=
  if !plain then .string
  else if content == ['<', '<'] then .merge
  else ofText true content

/-- A tag that is asked for holds of a content: the content reads as it, or as an
integer where a fraction is asked for. -/
def admits (tag : Tag) (content : List Char) : Bool :=
  match tag with
  | .string | .merge | .binary | .other => true
  | .fraction => [.fraction, .integer].contains (ofText false content)
  | .timestamp => ofText true content = .timestamp
  | tag => ofText false content = tag

end Tag

/-- The words that older versions of the format read as booleans. -/
def oldBoolean? (text : String) : Option Bool :=
  if ["y", "Y", "yes", "Yes", "YES", "on", "On", "ON"].contains text then some true
  else if ["n", "N", "no", "No", "NO", "off", "Off", "OFF"].contains text then some false
  else none

/-- Colons, each with one or two digits below sixty behind it, then possibly a
point with digits. -/
def sexagesimalTail : Nat → List Char → Bool
  | 0, _ => false
  | budget + 1, text =>
      match text with
      | ':' :: text =>
          let digits := text.takeWhile Numeral.isDigit
          let rest := text.dropWhile Numeral.isDigit
          let fits :=
            match digits with
            | [_] => true
            | [tens, _] => tens ≤ '5'
            | _ => false
          fits && (ends rest || sexagesimalTail budget rest)
      | _ => false
where
  ends : List Char → Bool
    | [] => true
    | '.' :: text => text.all fun char => Numeral.isDigit char || char == '_'
    | _ => false

/-- A number in base sixty, as older versions of the format read it. -/
def isSexagesimal (text : List Char) : Bool :=
  let unsigned :=
    match text with
    | '-' :: text | '+' :: text => text
    | text => text
  match unsigned with
  | digit :: text =>
      Numeral.isDigit digit &&
        sexagesimalTail (text.length + 1)
          (text.dropWhile fun char => Numeral.isDigit char || char == '_')
  | [] => false

end Stencil.Yaml
