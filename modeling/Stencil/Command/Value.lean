import Stencil.Text.Numeral
import Stencil.Text.Quoted

/-!
# Values of flags

Truth values, numbers, durations and lists, as they are written on a command
line.  A text that is none says why.
-/

namespace Stencil.Command

/-- The bytes of a text as characters. -/
def charsOf (text : Bytes) : List Char :=
  text.map fun b => Char.ofNat b.toNat

/-- A truth value. -/
def readBool (text : Bytes) : Except Bytes Bool :=
  let isOneOf (words : List String) : Bool := words.any fun word => bytes word == text
  if isOneOf ["1", "t", "T", "true", "TRUE", "True"] then .ok true
  else if isOneOf ["0", "f", "F", "false", "FALSE", "False"] then .ok false
  else
    .error (bytes "strconv.ParseBool: parsing " ++ Quoted.quote text ++ bytes ": invalid syntax")

/-- Why a text is not a number. -/
inductive NumberFault where
  | form
  | range
  deriving DecidableEq

/-- The wording of a fault. -/
def NumberFault.message : NumberFault → Bytes
  | .form => bytes "invalid syntax"
  | .range => bytes "value out of range"

/-- The base a number begins with, and its digits. -/
def baseAndDigits : List Char → Nat × List Char
  | '0' :: mark :: digit :: digits =>
      if mark == 'x' || mark == 'X' then (16, digit :: digits)
      else if mark == 'o' || mark == 'O' then (8, digit :: digits)
      else if mark == 'b' || mark == 'B' then (2, digit :: digits)
      else (8, mark :: digit :: digits)
  | '0' :: digits => (8, digits)
  | digits => (10, digits)

/-- The number that digits write behind a number, as long as it fits into
sixty-four bits.  Underscores do not count. -/
def magnitude (base : Nat) : Nat → List Char → Except NumberFault Nat
  | n, [] => .ok n
  | n, char :: digits =>
      if char == '_' then magnitude base n digits
      else
        match Hex.value? char with
        | none => .error .form
        | some value =>
            if base ≤ value then .error .form
            else if Numeral.wordLimit ≤ n * base + value then .error .range
            else magnitude base (n * base + value) digits

/-- Every underscore has digits on both sides; what tells the base is a digit
here. -/
def underscoresInside (text : List Char) : Bool :=
  let digits : List Char :=
    match baseAndDigits text with
    | (10, digits) => digits
    | (_, digits) => '0' :: digits
  Numeral.underscoresBetween (· != '_') digits

/-- A number without a sign. -/
def readMagnitude (text : List Char) : Except NumberFault Nat :=
  if text.isEmpty then .error .form
  else do
    let split := baseAndDigits text
    let n ← magnitude split.1 0 split.2
    if underscoresInside text then .ok n else .error .form

/-- A number with an optional sign, within sixty-four bits. -/
def readNumber (text : List Char) : Except NumberFault Int :=
  match text with
  | '-' :: digits => do
      let n ← readMagnitude digits
      if n ≤ Numeral.signLimit then .ok (-n) else .error .range
  | '+' :: digits => unsigned digits
  | digits => unsigned digits
where
  unsigned (digits : List Char) : Except NumberFault Int := do
    let n ← readMagnitude digits
    if n < Numeral.signLimit then .ok n else .error .range

/-- A number. -/
def readInt (text : Bytes) : Except Bytes Int :=
  match readNumber (charsOf text) with
  | .ok n => .ok n
  | .error fault =>
      .error (bytes "strconv.ParseInt: parsing " ++ Quoted.quote text ++ bytes ": " ++
        fault.message)

/-- Why a text is not a duration. -/
inductive DurationFault where
  | form
  | missingUnit
  | unknownUnit (unit : Bytes)
  deriving DecidableEq

/-- A text in double quotes.  Whatever is not an ASCII character is escaped byte
by byte. -/
def quoteBytes (text : Bytes) : Bytes :=
  let escaped (b : UInt8) : Bytes :=
    if b < 0x20 || 0x80 ≤ b then bytes "\\x" ++ Hex.digits Hex.lowerDigit 2 b.toNat
    else if b == byte '"' || b == byte '\\' then [byte '\\', b]
    else [b]
  byte '"' :: text.flatMap escaped ++ [byte '"']

/-- The wording of a fault in a text. -/
def DurationFault.message (text : Bytes) : DurationFault → Bytes
  | .form => bytes "time: invalid duration " ++ quoteBytes text
  | .missingUnit => bytes "time: missing unit in duration " ++ quoteBytes text
  | .unknownUnit unit =>
      bytes "time: unknown unit " ++ quoteBytes unit ++ bytes " in duration " ++ quoteBytes text

/-- The nanoseconds of a unit. -/
def unit? (name : Bytes) : Option Nat :=
  [("ns", 1), ("us", 1000), ("\u00b5s", 1000), ("\u03bcs", 1000), ("ms", 1000000),
    ("s", 1000000000), ("m", 60 * 1000000000), ("h", 3600 * 1000000000)].findSome?
    fun (known, size) =>
      if bytes known == name then some size else none

/-- An ASCII digit. -/
def isDigit (b : UInt8) : Bool :=
  byte '0' ≤ b && b ≤ byte '9'

/-- The number that decimal digits write. -/
def decimal (digits : Bytes) : Nat :=
  digits.foldl (fun n digit => n * 10 + (digit - byte '0').toNat) 0

/-- The digits behind a point at the beginning of a text, and what follows. -/
def fractionOf : Bytes → Bytes × Bytes
  | [] => ([], [])
  | b :: text =>
      if b == byte '.' then (text.takeWhile isDigit, text.dropWhile isDigit)
      else ([], b :: text)

/-- A number with its unit at the beginning of a text, in nanoseconds, and what
follows. -/
def durationTerm (text : Bytes) : Except DurationFault (Nat × Bytes) :=
  let whole := text.takeWhile isDigit
  let split := fractionOf (text.dropWhile isDigit)
  let isUnit (b : UInt8) : Bool := !(isDigit b || b == byte '.')
  let unit := split.2.takeWhile isUnit
  if (whole.isEmpty && split.1.isEmpty) || Numeral.signLimit < decimal whole then .error .form
  else if unit.isEmpty then .error .missingUnit
  else
    match unit? unit with
    | none => .error (.unknownUnit unit)
    | some size =>
        let total := decimal whole * size + decimal split.1 * size / Nat.pow 10 split.1.length
        if Numeral.signLimit < total then .error .form else .ok (total, split.2.dropWhile isUnit)

/-- The sum of the terms that make up a text.  `budget` bounds their number. -/
def durationTerms : Nat → Bytes → Except DurationFault Nat
  | _, [] => .ok 0
  | 0, _ :: _ => .error .form
  | budget + 1, text => do
      let first ← durationTerm text
      let total := first.1 + (← durationTerms budget first.2)
      if Numeral.signLimit < total then .error .form else .ok total

/-- A duration without a sign. -/
def unsignedDuration (text : Bytes) : Except DurationFault Nat :=
  if text = [byte '0'] then .ok 0
  else if text.isEmpty then .error .form
  else durationTerms text.length text

/-- A duration with an optional sign. -/
def signedDuration (text : Bytes) : Except DurationFault Int :=
  match text with
  | [] => .error .form
  | b :: rest =>
      if b == byte '-' then (unsignedDuration rest).map fun n => -(n : Int)
      else do
        let n ← unsignedDuration (if b == byte '+' then rest else text)
        if n < Numeral.signLimit then .ok n else .error .form

/-- A duration in nanoseconds. -/
def readDuration (text : Bytes) : Except Bytes Int :=
  match signedDuration text with
  | .ok n => .ok n
  | .error fault => .error (fault.message text)

/-- Where a list is being read. -/
inductive ListState where
  /-- In front of an item. -/
  | start
  /-- In an item. -/
  | plain (item : Bytes)
  /-- In an item in quotes. -/
  | quoted (item : Bytes)
  /-- Behind a quote in an item in quotes. -/
  | closed (item : Bytes)

/-- A fault in a list. -/
def listFault (column : Nat) (reason : String) : Bytes :=
  bytes "parse error on line 1, column " ++ Bytes.ofNat column ++ bytes ": " ++ bytes reason

/-- The items of a list from a column on. -/
def listItems (column : Nat) : ListState → Bytes → Except Bytes (List Bytes)
  | .start, [] => .ok [[]]
  | .plain item, [] => .ok [item]
  | .closed item, [] => .ok [item]
  | .quoted _, [] => .error (listFault column "extraneous or missing \" in quoted-field")
  | state, b :: text =>
      let isQuote := b == byte '"'
      let isComma := b == byte ','
      match state with
      | .start =>
          if isQuote then listItems (column + 1) (.quoted []) text
          else if isComma then (listItems (column + 1) .start text).map ([] :: ·)
          else listItems (column + 1) (.plain [b]) text
      | .plain item =>
          if isQuote then .error (listFault column "bare \" in non-quoted field")
          else if isComma then (listItems (column + 1) .start text).map (item :: ·)
          else listItems (column + 1) (.plain (item ++ [b])) text
      | .quoted item =>
          if isQuote then listItems (column + 1) (.closed item) text
          else listItems (column + 1) (.quoted (item ++ [b])) text
      | .closed item =>
          if isQuote then listItems (column + 1) (.quoted (item ++ [b])) text
          else if isComma then (listItems (column + 1) .start text).map (item :: ·)
          else
            .error (listFault (column - 1) "extraneous or missing \" in quoted-field")

/-- A list of items between commas, the first line that is not empty.  An item in
double quotes may contain commas, and quotes if they are doubled. -/
def readList (text : Bytes) : Except Bytes (List Bytes) :=
  if text.isEmpty then .ok []
  else
    match (Bytes.splitOn (byte '\n') text).find? fun line => !line.isEmpty with
    | none => .error (bytes "EOF")
    | some line => listItems 1 .start line

end Stencil.Command
