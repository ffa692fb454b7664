import TreeQuery.Calendar.Date
import TreeQuery.Number.Binary64
import TreeQuery.Number.Bounds
import TreeQuery.Toml
import TreeQuery.Toml.Scan

/-!
# Numbers and times of TOML texts

Only the form of these is checked, and that integers fit 64 bits, floats are not too large, and days exist. Each
reader gives the kind of what it has read.
-/

namespace TreeQuery.Toml

/-- Reads digits that a test admits; an underscore may stand between two of them. -/
def digits? (isDigit : Char → Bool) : Reader (List Char) := fun cs =>
  match cs with
  | c :: rest =>
    if isDigit c then
      let (later, rest) := many (fun
        | '_' :: d :: rest => if isDigit d then some (d, rest) else none
        | d :: rest => if isDigit d then some (d, rest) else none
        | [] => none) rest
      some (c :: later, rest)
    else none
  | [] => none

/-- Reads a sign, if there is one. -/
def sign : List Char → Bool × List Char
  | '-' :: rest => (true, rest)
  | '+' :: rest => (false, rest)
  | cs => (false, cs)

/-- Reads a decimal integer without its sign: no digit follows a leading zero. -/
def decimal? : Reader (List Char)
  | '0' :: rest => some (['0'], rest)
  | cs => digits? Char.isDigit cs

/-- Reads an integer after a mark of its base. -/
def based? (isDigit : Char → Bool) (base : Nat) (valueOf : Char → Nat) : Reader TomlScalar := fun cs => do
  let (digits, rest) ← digits? isDigit cs
  if digits.foldl (fun n d => n * base + valueOf d) 0 < Number.int64Bound then some (.integer, rest) else none

/-- The value of a digit in any base up to sixteen. -/
def digitValue (c : Char) : Nat :=
  if c.isDigit then c.toNat - '0'.toNat
  else if 'a' ≤ c ∧ c ≤ 'f' then c.toNat - 'a'.toNat + 10
  else c.toNat - 'A'.toNat + 10

/-- Whether a character is a digit of base sixteen. -/
def isHexDigit (c : Char) : Bool := c.isDigit || ('a' ≤ c && c ≤ 'f') || ('A' ≤ c && c ≤ 'F')

/-- Reads an integer that fits 64 bits. -/
def integer? : Reader TomlScalar
  | '0' :: 'x' :: rest => based? isHexDigit 16 digitValue rest
  | '0' :: 'o' :: rest => based? (fun c => '0' ≤ c && c ≤ '7') 8 digitValue rest
  | '0' :: 'b' :: rest => based? (fun c => c == '0' || c == '1') 2 digitValue rest
  | cs => do
    let (negative, rest) := sign cs
    let (digits, rest) ← decimal? rest
    let magnitude := Nat.ofDigitChars 10 digits 0
    if magnitude < Number.int64Bound ∨ (negative ∧ magnitude = Number.int64Bound) then some (.integer, rest) else none

/-- Reads a fraction. -/
def fraction? : Reader (List Char)
  | '.' :: rest => digits? Char.isDigit rest
  | _ => none

/-- Reads an exponent. -/
def exponent? : Reader Int
  | c :: rest =>
    if c = 'e' ∨ c = 'E' then do
      let (negative, rest) := sign rest
      let (digits, rest) ← digits? Char.isDigit rest
      let power : Int := Nat.ofDigitChars 10 digits 0
      return (if negative then -power else power, rest)
    else none
  | [] => none

/-- Reads infinity or a NaN without a sign. -/
def specialFloat? (cs : List Char) : Option (List Char) := (word? "inf".toList cs).or (word? "nan".toList cs)

/-- Reads a float that is not too large for its format. -/
def float? : Reader TomlScalar := fun cs => do
  let (negative, rest) := sign cs
  match decimal? rest with
  | none => return (.float, ← specialFloat? rest)
  | some (whole, rest) =>
    let fraction := fraction? rest
    let (fractionDigits, rest) := fraction.getD ([], rest)
    let exponent := exponent? rest
    let (power, rest) := exponent.getD (0, rest)
    let digits := Nat.ofDigitChars 10 (whole ++ fractionDigits) 0
    let x := Binary64.ofDecimal negative digits (power - fractionDigits.length)
    if fraction.isNone && exponent.isNone then none
    else if x.isInfinite && !negative then none
    else return (.float, rest)

/-- Reads a number of exactly two digits up to a bound. -/
def twoDigits? (least most : Nat) : Reader Nat
  | a :: b :: rest =>
    let n := Nat.ofDigitChars 10 [a, b] 0
    if a.isDigit && b.isDigit && least ≤ n && n ≤ most then some (n, rest) else none
  | _ => none

/-- Reads a day of the calendar. -/
def date? (cs : List Char) : Option (List Char) := do
  let year := cs.take 4
  if year.length = 4 ∧ year.all Char.isDigit then
    let rest ← char? '-' (cs.drop 4)
    let (month, rest) ← twoDigits? 1 12 rest
    let rest ← char? '-' rest
    let (day, rest) ← twoDigits? 1 31 rest
    if day ≤ daysInMonth (Nat.ofDigitChars 10 year 0) month then some rest else none
  else none

/-- Reads a time of day. -/
def time? (cs : List Char) : Option (List Char) := do
  let (_, rest) ← twoDigits? 0 23 cs
  let rest ← char? ':' rest
  let (_, rest) ← twoDigits? 0 59 rest
  let rest ← char? ':' rest
  let (_, rest) ← twoDigits? 0 60 rest
  match rest with
  | '.' :: more =>
    let digits := more.takeWhile Char.isDigit
    some (if digits.isEmpty then rest else more.drop digits.length)
  | _ => some rest

/-- Reads the offset of a time from the common one. -/
def offset? : List Char → Option (List Char)
  | c :: rest =>
    if c = 'Z' ∨ c = 'z' then some rest
    else if c = '+' ∨ c = '-' then do
      let (_, rest) ← twoDigits? 0 23 rest
      let rest ← char? ':' rest
      let (_, rest) ← twoDigits? 0 59 rest
      return rest
    else none
  | [] => none

/-- Reads the time after a date, if there is one, and its offset, if it has one. -/
def timeAfterDate (cs : List Char) : List Char :=
  match cs with
  | c :: rest =>
    if c = 'T' ∨ c = 't' ∨ c = ' ' then
      match time? rest with
      | some rest => (offset? rest).getD rest
      | none => cs
    else cs
  | [] => cs

/-- Reads a date, a time of day, or both. -/
def dateTime? : Reader TomlScalar := fun cs =>
  match date? cs with
  | some rest => some (.dateTime, timeAfterDate rest)
  | none => (time? cs).map fun rest => (.dateTime, rest)

/-- Reads a scalar that is not a string. -/
def scalar? : Reader TomlScalar := fun cs =>
  match cs with
  | 't' :: _ => (word? "true".toList cs).map fun rest => (.boolean, rest)
  | 'f' :: _ => (word? "false".toList cs).map fun rest => (.boolean, rest)
  | _ => orElse dateTime? (orElse float? integer?) cs

end TreeQuery.Toml
