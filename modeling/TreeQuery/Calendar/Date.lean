import TreeQuery.Text.Blank

/-!
# Calendar dates

Dates of the Gregorian calendar, carried back before its adoption, with the two forms in which they are read: the
strict one of query text and the looser one of documents.
-/

namespace TreeQuery

/-- Whether a year of the Gregorian calendar has a 29th of February. -/
def isLeapYear (year : Int) : Bool := year % 4 == 0 && (year % 100 != 0 || year % 400 == 0)

/-- The number of days in a month; zero if there is no such month. -/
def daysInMonth (year : Int) (month : Nat) : Nat :=
  match month with
  | 1 | 3 | 5 | 7 | 8 | 10 | 12 => 31
  | 4 | 6 | 9 | 11 => 30
  | 2 => if isLeapYear year then 29 else 28
  | _ => 0

/-- A day of the calendar. -/
structure Date where
  year : Int
  month : Nat
  day : Nat
  year_low : -262143 ≤ year
  year_high : year ≤ 262142
  day_pos : 1 ≤ day
  day_le : day ≤ daysInMonth year month
  deriving DecidableEq

namespace Date

/-- The date with a year, a month and a day, if the calendar has it. -/
def ofParts? (year : Int) (month day : Nat) : Option Date :=
  if h : -262143 ≤ year ∧ year ≤ 262142 ∧ 1 ≤ day ∧ day ≤ daysInMonth year month then
    some ⟨year, month, day, h.1, h.2.1, h.2.2.1, h.2.2.2⟩
  else none

/-- The date written by three groups of digits: a year of up to four digits, a month and a day of up to two. -/
def ofDigits? (year month day : List Char) : Option Date :=
  if year.length ≤ 4 ∧ month.length ≤ 2 ∧ day.length ≤ 2 then
    ofParts? (Nat.ofDigitChars 10 year 0) (Nat.ofDigitChars 10 month 0) (Nat.ofDigitChars 10 day 0)
  else none

/-- A year, a month and a day as text: `2024-01-31`; a year outside 0 to 9999 has a sign. -/
def chars (d : Date) : List Char :=
  let year := (Nat.toDigits 10 d.year.natAbs).leftpad 4 '0'
  let sign := if d.year < 0 then ['-'] else if 9999 < d.year then ['+'] else []
  sign ++ year ++ '-' :: (Nat.toDigits 10 d.month).leftpad 2 '0' ++ '-' :: (Nat.toDigits 10 d.day).leftpad 2 '0'

/-- A date as text. -/
def text (d : Date) : String := String.ofList d.chars

/-- A number of one to `width` digits after any blanks, and the text after it. -/
def readNumber? (width : Nat) (cs : List Char) : Option (Nat × List Char) :=
  let cs := Text.trimStart cs
  let digits := (cs.take width).takeWhile Char.isDigit
  if digits.isEmpty then none else some (Nat.ofDigitChars 10 digits 0, cs.drop digits.length)

/-- A year after any blanks: up to four digits, or a sign and any number of digits. -/
def readYear? (cs : List Char) : Option (Int × List Char) :=
  match Text.trimStart cs with
  | '-' :: rest => signed rest fun n => -n
  | '+' :: rest => signed rest id
  | rest => (readNumber? 4 rest).map fun (n, rest) => ((n : Int), rest)
where
  /-- The digits after a sign. -/
  signed (rest : List Char) (f : Int → Int) : Option (Int × List Char) :=
    let digits := rest.takeWhile Char.isDigit
    if digits.isEmpty then none else some (f (Nat.ofDigitChars 10 digits 0), rest.drop digits.length)

/-- The text after a hyphen that follows any blanks. -/
def readHyphen? (cs : List Char) : Option (List Char) :=
  match Text.trimStart cs with
  | '-' :: rest => some rest
  | _ => none

/-- Reads a date as documents write it: blanks may stand around each number. -/
def ofText? (s : String) : Option Date := do
  let (year, rest) ← readYear? s.toList
  let rest ← readHyphen? rest
  let (month, rest) ← readNumber? 2 rest
  let rest ← readHyphen? rest
  let (day, rest) ← readNumber? 2 rest
  if (Text.trimStart rest).isEmpty then ofParts? year month day else none

example : (ofDigits? "2024".toList "2".toList "29".toList).map text = some "2024-02-29" := by decide +kernel
example : (ofDigits? "2023".toList "02".toList "29".toList).isNone := by decide +kernel
example : (ofText? " +12345 - 1-2").map text = some "+12345-01-02" := by decide +kernel

end Date

end TreeQuery
