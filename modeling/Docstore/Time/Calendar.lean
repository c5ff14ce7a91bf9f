/-!
# Calendar

The proleptic Gregorian calendar, counted in days from 1970-01-01.

* `Date` : year, month and day;
* `Date.toDays`, `Date.ofDays` : to and from the day count;
* `Date.isValid` : the month exists and has that day.

A year is taken to begin in March, so that the leap day is its last day, and 400 years are an
era: every era has the same number of days. Each day count is that of its date
(`Date.toDays_ofDays`).
-/

namespace Docstore

/-- A day of the calendar. -/
structure Date where
  year : Int
  /-- The month, January being 1. -/
  month : Nat
  day : Nat
deriving DecidableEq

namespace Date

/-- A year with a 29th of February. -/
def isLeap (year : Int) : Bool := year % 4 == 0 && (year % 100 != 0 || year % 400 == 0)

/-- The number of days of a month. -/
def daysInMonth (year : Int) (month : Nat) : Nat :=
  if month = 2 then (if isLeap year then 29 else 28)
  else if month = 4 ∨ month = 6 ∨ month = 9 ∨ month = 11 then 30
  else 31

/-- The day exists. -/
def isValid (d : Date) : Bool :=
  1 ≤ d.month && d.month ≤ 12 && 1 ≤ d.day && d.day ≤ daysInMonth d.year d.month

/-- The days in 400 years. -/
def daysPerEra : Int := 146097

/-- The days from 1 March of the year 0 to 1 January 1970. -/
def epochOffset : Int := 719468

/-- The days of an era before the first of March of its year `year`. -/
def daysBeforeYear (year : Int) : Int := year * 365 + year / 4 - year / 100

/-- The days of a year before its month `month`, both counted from March. -/
def daysBeforeMonth (month : Int) : Int := (153 * month + 2) / 5

/-- The year of an era that holds a day of the era. -/
def yearOfDay (day : Int) : Int := (day - day / 1460 + day / 36524 - day / 146096) / 365

/-- The month, counted from March, that holds a day of the year. -/
def monthOfDay (day : Int) : Int := (5 * day + 2) / 153

/-- The number of days since 1970-01-01. -/
def toDays (d : Date) : Int :=
  let year := if d.month ≤ 2 then d.year - 1 else d.year
  let month : Int := if d.month ≤ 2 then d.month + 9 else d.month - 3
  year / 400 * daysPerEra + daysBeforeYear (year % 400) + daysBeforeMonth month + d.day - 1 -
    epochOffset

/-- The date with `month` months after March of `year`, and `day` days after its first. -/
def ofMarch (year month day : Int) : Date :=
  if month < 10 then ⟨year, (month + 3).toNat, (day + 1).toNat⟩
  else ⟨year + 1, (month - 9).toNat, (day + 1).toNat⟩

/-- The day that stands `days` days after 1970-01-01. -/
def ofDays (days : Int) : Date :=
  let era := (days + epochOffset) / daysPerEra
  let dayOfEra := (days + epochOffset) % daysPerEra
  let year := yearOfDay dayOfEra
  let dayOfYear := dayOfEra - daysBeforeYear year
  let month := monthOfDay dayOfYear
  ofMarch (era * 400 + year) month (dayOfYear - daysBeforeMonth month)

theorem daysBeforeYear_yearOfDay {day : Int} (h : 0 ≤ day ∧ day < 146097) :
    0 ≤ yearOfDay day ∧ yearOfDay day < 400 ∧
      0 ≤ day - daysBeforeYear (yearOfDay day) ∧ day - daysBeforeYear (yearOfDay day) < 366 := by
  unfold daysBeforeYear
  generalize hy : yearOfDay day = year
  unfold yearOfDay at hy
  -- Without the leap days the years have 365 days each.
  obtain ⟨hlow, hhigh⟩ : 365 * year ≤ day - day / 1460 + day / 36524 - day / 146096 ∧
      day - day / 1460 + day / 36524 - day / 146096 < 365 * year + 365 := by omega
  -- The leap days before the day are those before its year, up to one.
  have hcentury : day / 36524 = 0 ∨ day / 36524 = 1 ∨ day / 36524 = 2 ∨ day / 36524 = 3 ∨
      day / 36524 = 4 := by omega
  have hfour : year / 4 ≤ day / 1460 ∧ day / 1460 ≤ year / 4 + 1 := by omega
  have hhundred : year / 100 = day / 36524 - day / 146096 := by omega
  omega

theorem daysBeforeMonth_monthOfDay {day : Int} (h : 0 ≤ day ∧ day < 366) :
    0 ≤ monthOfDay day ∧ monthOfDay day < 12 ∧ 0 ≤ day - daysBeforeMonth (monthOfDay day) := by
  unfold monthOfDay daysBeforeMonth
  omega

theorem toDays_ofMarch {year month day : Int} (hm : 0 ≤ month ∧ month < 12) (hd : 0 ≤ day) :
    (ofMarch year month day).toDays =
      year / 400 * daysPerEra + daysBeforeYear (year % 400) + daysBeforeMonth month + day -
        epochOffset := by
  unfold ofMarch
  split
  · have h3 : ¬ (month + 3).toNat ≤ 2 := by omega
    have hmonth : ((month + 3).toNat : Int) - 3 = month := by omega
    simp only [toDays, h3, if_false, hmonth]
    omega
  · have h3 : (month - 9).toNat ≤ 2 := by omega
    have hmonth : ((month - 9).toNat : Int) + 9 = month := by omega
    have hyear : year + 1 - 1 = year := by omega
    simp only [toDays, h3, if_true, hmonth, hyear]
    omega

theorem toDays_ofDays (days : Int) : (ofDays days).toDays = days := by
  have hday : 0 ≤ (days + epochOffset) % daysPerEra ∧
      (days + epochOffset) % daysPerEra < 146097 := by unfold daysPerEra; omega
  obtain ⟨hy0, hy1, hd⟩ := daysBeforeYear_yearOfDay hday
  obtain ⟨hm0, hm1, hr⟩ := daysBeforeMonth_monthOfDay hd
  unfold ofDays
  rw [toDays_ofMarch ⟨hm0, hm1⟩ hr]
  generalize hyear : yearOfDay ((days + epochOffset) % daysPerEra) = year at *
  have hera : ((days + epochOffset) / daysPerEra * 400 + year) / 400 =
      (days + epochOffset) / daysPerEra := by omega
  have hrest : ((days + epochOffset) / daysPerEra * 400 + year) % 400 = year := by omega
  rw [hera, hrest]
  unfold daysPerEra epochOffset at *
  omega

example : (⟨1970, 1, 1⟩ : Date).toDays = 0 := by decide
example : ofDays 11016 = ⟨2000, 2, 29⟩ := by decide
example : ofDays (-719529) = ⟨-1, 12, 31⟩ := by decide

end Date

end Docstore
