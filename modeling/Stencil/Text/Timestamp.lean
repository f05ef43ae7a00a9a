import Stencil.Text.Numeral

/-!
# Dates and times

Which character sequences name a day of the calendar, a time of the day or
both.  A field is two digits wide, or one or two digits wide where the format
allows it.
-/

namespace Stencil.Timestamp

/-- How wide the fields of a date and time have to be. -/
inductive Width where
  /-- Always two digits. -/
  | exact
  /-- One or two digits. -/
  | short
  deriving DecidableEq

/-- Reads a two digit field, or a one digit field where that is allowed. -/
def field? (width : Width) : List Char → Option (Nat × List Char)
  | a :: b :: text =>
      if Numeral.isDigit a then
        if Numeral.isDigit b then
          (Numeral.natural? 10 [a, b]).map (·, text)
        else if width = .short then
          (Numeral.natural? 10 [a]).map (·, b :: text)
        else none
      else none
  | [a] =>
      if Numeral.isDigit a && width = .short then (Numeral.natural? 10 [a]).map (·, []) else none
  | [] => none

/-- Reads one given character. -/
def mark? (mark : Char) : List Char → Option (List Char)
  | char :: text => if char == mark then some text else none
  | [] => none

/-- Every fourth year has a leap day, but of the full centuries only every
fourth. -/
def isLeap (year : Nat) : Bool :=
  year % 4 == 0 && (year % 100 != 0 || year % 400 == 0)

/-- The number of days in a month. -/
def daysIn (year month : Nat) : Nat :=
  match month with
  | 2 => if isLeap year then 29 else 28
  | 4 | 6 | 9 | 11 => 30
  | _ => 31

/-- Reads a day of the calendar. -/
def date? (width : Width) (text : List Char) : Option (List Char) := do
  let digits := text.take 4
  guard (digits.length == 4 && digits.all Numeral.isDigit)
  let year ← Numeral.natural? 10 digits
  let rest ← mark? '-' (text.drop 4)
  let (month, rest) ← field? width rest
  let rest ← mark? '-' rest
  let (day, rest) ← field? width rest
  guard (1 ≤ month && month ≤ 12 && 1 ≤ day && day ≤ daysIn year month)
  return rest

/-- Reads the fraction of a second, if there is one. -/
def fraction : List Char → List Char
  | point :: digit :: text =>
      if (point == '.' || point == ',') && Numeral.isDigit digit then
        text.dropWhile Numeral.isDigit
      else point :: digit :: text
  | text => text

/-- Reads a time of the day. -/
def time? (width : Width) (text : List Char) : Option (List Char) := do
  let (hour, rest) ← field? width text
  let rest ← mark? ':' rest
  let (minute, rest) ← field? width rest
  let rest ← mark? ':' rest
  let (second, rest) ← field? width rest
  guard (hour < 24 && minute < 60 && second < 60)
  return fraction rest

/-- Reads an offset from universal time. -/
def zone? : List Char → Option (List Char)
  | 'Z' :: text => some text
  | sign :: text => do
      guard (sign == '+' || sign == '-')
      let (hour, rest) ← field? .exact text
      let rest ← mark? ':' rest
      let (minute, rest) ← field? .exact rest
      guard (hour ≤ 24 && minute ≤ 60)
      return rest
  | [] => none

/-- A reader accepts a text when it leaves nothing of it. -/
def accepts (read? : List Char → Option (List Char)) (text : List Char) : Bool :=
  match read? text with
  | some [] => true
  | _ => false

/-- The text is a date; a date and a time after any number of spaces; or a date
and a time with a zone, after `T` or `t`.  Fields may be short. -/
def isShort (text : List Char) : Bool :=
  accepts (fun text => do zone? (← time? .short (← mark? 'T' (← date? .short text)))) text ||
    accepts (fun text => do zone? (← time? .short (← mark? 't' (← date? .short text)))) text ||
    accepts (fun text => do
      time? .short ((← mark? ' ' (← date? .short text)).dropWhile (· == ' '))) text ||
    accepts (date? .short) text

/-- The text is a date, a time, or a date and a time behind `T`, `t` or a space,
with or without a zone.  Every field has two digits. -/
def isExact (text : List Char) : Bool :=
  let text := text.map fun char =>
    if char == 'z' then 'Z' else if char == 't' || char == ' ' then 'T' else char
  accepts (fun text => do zone? (← time? .exact (← mark? 'T' (← date? .exact text)))) text ||
    accepts (fun text => do time? .exact (← mark? 'T' (← date? .exact text))) text ||
    accepts (date? .exact) text ||
    accepts (time? .exact) text

end Stencil.Timestamp
