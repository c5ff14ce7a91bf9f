import Docstore.Text.Digits
import Docstore.Time.Calendar

/-!
# Instants

Points of time as milliseconds since 1970-01-01T00:00:00Z, and their two texts.

* `Instant.ofText?` : reads `YYYY-MM-DDTHH:MM:SS`, an optional fraction, and `Z` or an offset;
* `Instant.text?` : writes that form in UTC, for the years 0 to 9999;
* `Instant.longText` : a form with a blank between date and time, for any year that has at
  most six digits, and the bare milliseconds beyond.

A time cut to milliseconds is cut toward 1970. A second 60 is read as the last nanosecond of
second 59, and only at the end of a month in UTC.
-/

namespace Docstore

/-- A time of day of a calendar day, in UTC. -/
structure Clock where
  date : Date
  hour : Nat
  minute : Nat
  second : Nat
  /-- Fractions of the second. -/
  millisecond : Nat
deriving DecidableEq

namespace Instant

/-- The milliseconds of a day. -/
def millisPerDay : Int := 86400000

/-- The nanoseconds of a day. -/
def nanosPerDay : Int := 86400000000000

/-- Date and time of day of an instant. -/
def clock (millis : Int) : Clock :=
  let rest := (millis % millisPerDay).toNat
  { date := .ofDays (millis / millisPerDay)
    hour := rest / 3600000
    minute := rest / 60000 % 60
    second := rest / 1000 % 60
    millisecond := rest % 1000 }

/-! ### Writing -/

/-- A number with two digits. -/
def twoDigits (n : Nat) : List Char := Text.padLeft 2 (Text.natDigits n)

/-- Milliseconds as the fraction of a second, without trailing zeros. -/
def fractionDigits (millisecond : Nat) : List Char :=
  Text.dropTrailingZeros (Text.padLeft 3 (Text.natDigits millisecond))

/-- The year is one that the short form can show. -/
def hasShortYear (year : Int) : Bool := 0 ≤ year && year ≤ 9999

/-- The text in UTC, without a fraction that is zero. -/
def text? (millis : Int) : Option String :=
  let c := clock millis
  if hasShortYear c.date.year then
    let fraction := if c.millisecond = 0 then [] else '.' :: fractionDigits c.millisecond
    some (String.ofList
      (Text.padLeft 4 (Text.natDigits c.date.year.toNat) ++ '-' :: twoDigits c.date.month ++
        '-' :: twoDigits c.date.day ++ 'T' :: twoDigits c.hour ++ ':' :: twoDigits c.minute ++
        ':' :: twoDigits c.second ++ fraction ++ ['Z']))
  else none

/-- A year of at least four digits, with a sign when it is negative or has more. -/
def longYear (year : Int) : List Char :=
  let digits := Text.padLeft 4 (Text.natDigits year.natAbs)
  if year < 0 then '-' :: digits else if 9999 < year then '+' :: digits else digits

/-- The long text: hour without padding, a fraction of at least one digit, and the offset. -/
def longText (millis : Int) : String :=
  let c := clock millis
  if -999999 ≤ c.date.year ∧ c.date.year ≤ 999999 then
    let fraction := fractionDigits c.millisecond
    String.ofList
      (longYear c.date.year ++ '-' :: twoDigits c.date.month ++ '-' :: twoDigits c.date.day ++
        ' ' :: Text.natDigits c.hour ++ ':' :: twoDigits c.minute ++ ':' :: twoDigits c.second ++
        '.' :: (if fraction.isEmpty then ['0'] else fraction) ++ " +00:00:00".toList)
  else Text.intText millis

/-! ### Reading -/

/-- Takes a number of exactly `n` digits off the front. -/
def takeNumber? (n : Nat) (cs : List Char) : Option (Nat × List Char) :=
  if (cs.take n).length = n then
    (Text.natOfDigits? (cs.take n)).map fun value => (value, cs.drop n)
  else none

/-- Takes the character `c` off the front. -/
def takeChar? (c : Char) : List Char → Option (List Char)
  | d :: rest => if d = c then some rest else none
  | [] => none

/-- Takes a date off the front. -/
def takeDate? (cs : List Char) : Option (Date × List Char) := do
  let (year, cs) ← takeNumber? 4 cs
  let cs ← takeChar? '-' cs
  let (month, cs) ← takeNumber? 2 cs
  let cs ← takeChar? '-' cs
  let (day, cs) ← takeNumber? 2 cs
  return (⟨year, month, day⟩, cs)

/-- Takes the character between date and time off the front: any one of a single byte. -/
def takeSeparator? : List Char → Option (List Char)
  | c :: rest => if c.toNat < 128 then some rest else none
  | [] => none

/-- Takes an optional fraction of a second off the front, in nanoseconds; digits after the
ninth do not count. -/
def takeFraction? : List Char → Option (Nat × List Char)
  | '.' :: cs =>
    let digits := cs.takeWhile Char.isDigit
    if digits.isEmpty then none
    else
      let nine := (digits ++ List.replicate 9 '0').take 9
      some (Nat.ofDigitChars 10 nine 0, cs.dropWhile Char.isDigit)
  | cs => some (0, cs)

/-- Reads the offset from UTC that ends a text, in minutes. -/
def offset? : List Char → Option Int
  | ['Z'] => some 0
  | ['z'] => some 0
  | sign :: cs => do
    let (hours, cs) ← takeNumber? 2 cs
    let cs ← takeChar? ':' cs
    let (minutes, cs) ← takeNumber? 2 cs
    if hours ≤ 23 ∧ minutes ≤ 59 ∧ cs.isEmpty then
      if sign = '+' then some (hours * 60 + minutes)
      else if sign = '-' then some (-((hours : Int) * 60 + minutes))
      else none
    else none
  | [] => none

/-- The last second of a month, given by nanoseconds since 1970. -/
def endsMonth (nanos : Int) : Bool :=
  let date := Date.ofDays (nanos / nanosPerDay)
  nanos % nanosPerDay / 1000000000 == 86399 && date.day == Date.daysInMonth date.year date.month

/-- The nanoseconds since 1970 that a text denotes. -/
def nanosOfText? (cs : List Char) : Option Int := do
  let (date, cs) ← takeDate? cs
  let cs ← takeSeparator? cs
  let (hour, cs) ← takeNumber? 2 cs
  let cs ← takeChar? ':' cs
  let (minute, cs) ← takeNumber? 2 cs
  let cs ← takeChar? ':' cs
  let (second, cs) ← takeNumber? 2 cs
  let (fraction, cs) ← takeFraction? cs
  let offset ← offset? cs
  if date.isValid ∧ hour ≤ 23 ∧ minute ≤ 59 ∧ second ≤ 60 then
    let inserted := second == 60
    let seconds : Int := (hour * 60 + minute) * 60 + (if inserted then 59 else second)
    let nanos := (date.toDays * 86400 + seconds - offset * 60) * 1000000000 +
      (if inserted then 999999999 else fraction)
    if inserted && !endsMonth nanos then none else some nanos
  else none

/-- The instant that a text denotes. -/
def ofText? (text : String) : Option Int64 :=
  (nanosOfText? text.toList).map fun nanos => Int64.ofInt (nanos.tdiv 1000000)

end Instant

end Docstore
