import DeflateEcho.Number.Binary64
import DeflateEcho.Toml.Scan
import DeflateEcho.Toml.Value

/-!
# Toml/Numeral — whole numbers, floating-point numbers, dates and times

What begins with a digit or a sign is a date or a time if it reads as one, else a floating-point
number, else a whole number.  Each takes as much as it can; what is left over is for the context to
refuse.
-/

namespace DeflateEcho.Toml

/-! ## Digits -/

/-- The number of a decimal digit. -/
def digitValue (c : Char) : Nat :=
  if '0' ≤ c ∧ c ≤ '9' then c.toNat - '0'.toNat
  else if 'a' ≤ c ∧ c ≤ 'z' then c.toNat - 'a'.toNat + 10
  else c.toNat - 'A'.toNat + 10

/-- A digit of a base up to 36. -/
def isDigitOf (base : Nat) (c : Char) : Bool := c.isAlphanum && digitValue c < base

/-- Further digits, an underscore between two of them counting for nothing. -/
def moreDigits (base : Nat) (read : List Char) : List Char → List Char × List Char
  | '_' :: c :: rest =>
    if isDigitOf base c then moreDigits base (c :: read) rest else (read.reverse, '_' :: c :: rest)
  | c :: rest =>
    if isDigitOf base c then moreDigits base (c :: read) rest else (read.reverse, c :: rest)
  | [] => (read.reverse, [])

/-- One digit at least. -/
def digits (base : Nat) : Scanner (List Char)
  | c :: rest => if isDigitOf base c then some (moreDigits base [c] rest) else none
  | [] => none

/-- The number that digits spell. -/
def valueOf (base : Nat) (digits : List Char) : Nat :=
  digits.foldl (fun n c => base * n + digitValue c) 0

/-- Decimal digits without a leading zero. -/
def wholeDigits : Scanner (List Char)
  | '0' :: rest => some (['0'], rest)
  | text => digits 10 text

/-- A sign, if there is one, and whether it is a minus. -/
def sign : List Char → Bool × List Char
  | '+' :: rest => (false, rest)
  | '-' :: rest => (true, rest)
  | text => (false, text)

/-! ## Dates and times -/

/-- Exactly `count` decimal digits. -/
def fixedDigits (count : Nat) (text : List Char) : Option (Nat × List Char) :=
  let taken := text.take count
  if taken.length = count ∧ taken.all (isDigitOf 10) then some (valueOf 10 taken, text.drop count)
  else none

/-- A character that has to stand here. -/
def expect (c : Char) : List Char → Option (List Char)
  | d :: rest => if c = d then some rest else none
  | [] => none

def isLeapYear (year : Nat) : Bool := year % 4 = 0 && (year % 100 ≠ 0 || year % 400 = 0)

def daysIn (year month : Nat) : Nat :=
  if month = 2 then (if isLeapYear year then 29 else 28)
  else if month = 4 ∨ month = 6 ∨ month = 9 ∨ month = 11 then 30
  else 31

/-- The text behind a date of the calendar. -/
def date (text : List Char) : Option (List Char) := do
  let (year, text) ← fixedDigits 4 text
  let text ← expect '-' text
  let (month, text) ← fixedDigits 2 text
  let text ← expect '-' text
  let (day, text) ← fixedDigits 2 text
  if 1 ≤ month ∧ month ≤ 12 ∧ 1 ≤ day ∧ day ≤ daysIn year month then some text else none

/-- The text behind the parts of a second, if there are any. -/
def secondParts : List Char → List Char
  | '.' :: c :: rest => if c.isDigit then rest.dropWhile Char.isDigit else '.' :: c :: rest
  | text => text

/-- The text behind a time of day. -/
def time (text : List Char) : Option (List Char) := do
  let (hour, text) ← fixedDigits 2 text
  let text ← expect ':' text
  let (minute, text) ← fixedDigits 2 text
  let text ← expect ':' text
  let (second, text) ← fixedDigits 2 text
  if hour ≤ 23 ∧ minute ≤ 59 ∧ second ≤ 60 then some (secondParts text) else none

/-- The text behind an offset from universal time. -/
def timeOffset : List Char → Option (List Char)
  | c :: text =>
    if c = 'Z' ∨ c = 'z' then some text
    else if c = '+' ∨ c = '-' then do
      let (hour, text) ← fixedDigits 2 text
      let text ← expect ':' text
      let (minute, text) ← fixedDigits 2 text
      if hour ≤ 23 ∧ minute ≤ 59 then some text else none
    else none
  | [] => none

/-- The text behind a time of day that stands behind a date, and behind its offset. -/
def timeBehindDate : List Char → Option (List Char)
  | c :: text =>
    if c = 'T' ∨ c = 't' ∨ c = ' ' then do
      let text ← time text
      some ((timeOffset text).getD text)
    else none
  | [] => none

/-- A date, a date with a time, or a time. -/
def dateTime : Scanner Value := fun text =>
  match date text with
  | some text => some (.dateTime, (timeBehindDate text).getD text)
  | none => (time text).map fun text => (.dateTime, text)

/-! ## Numbers -/

/-- The places behind the point, if there are any. -/
def fraction : List Char → Option (List Char × List Char)
  | '.' :: text => digits 10 text
  | text => some ([], text)

/-- The power of ten, if there is one. -/
def exponent : List Char → Option (Option Int × List Char)
  | c :: text =>
    if c = 'e' ∨ c = 'E' then do
      let (negative, text) := sign text
      let (digits, text) ← digits 10 text
      let n : Int := valueOf 10 digits
      some (some (if negative then -n else n), text)
    else some (none, c :: text)
  | [] => some (none, [])

/-- A floating-point number.  One above every finite number is refused. -/
def decimal : Scanner Value := fun text => do
  let (negative, text) := sign text
  let (whole, text) ← wholeDigits text
  let (places, text) ← fraction text
  let (power, text) ← exponent text
  if places.isEmpty ∧ power.isNone then none
  else
    let x := Number.Binary64.ofDecimal negative (valueOf 10 (whole ++ places))
      (power.getD 0 - places.length)
    if x = .infinite false then none else some (.float x, text)

/-- A whole number of 64 bits. -/
def signed64 (n : Int) : Option Value :=
  if -0x8000000000000000 ≤ n ∧ n < 0x8000000000000000 then some (.integer n) else none

/-- A whole number; in another base than ten it has no sign. -/
def whole : Scanner Value
  | '0' :: 'x' :: text => based 16 text
  | '0' :: 'o' :: text => based 8 text
  | '0' :: 'b' :: text => based 2 text
  | text => do
    let (negative, text) := sign text
    let (digits, text) ← wholeDigits text
    let n : Int := valueOf 10 digits
    let value ← signed64 (if negative then -n else n)
    some (value, text)
where
  based (base : Nat) (text : List Char) : Option (Value × List Char) := do
    let (digits, text) ← digits base text
    let value ← signed64 (valueOf base digits)
    some (value, text)

/-- Infinity, or what is no number, with a sign or without. -/
def special : Scanner Value := fun text =>
  let (negative, text) := sign text
  match text with
  | 'i' :: 'n' :: 'f' :: text => some (.float (.infinite negative), text)
  | 'n' :: 'a' :: 'n' :: text => some (.float .nan, text)
  | _ => none

/-- **What begins with a digit or a sign**, or is a number in letters. -/
def numeral : Scanner Value := fun text =>
  (dateTime text).or <| (decimal text).or <| (special text).or <| whole text

end DeflateEcho.Toml
