-- The proleptic Gregorian calendar on day numbers, where day 0 is
-- 1 January 1970. Years start in March inside the computation, so that the
-- leap day is the last day of its year.

namespace EntitySql

structure Date where
  year : Int
  month : Int
  day : Int
  deriving DecidableEq, Repr

namespace Date

-- Months and days outside the calendar count in 32-bit words.
def word (n : Int) : Int := n % 4294967296

-- Days before the given month, counted from March.
def daysBefore (month : Int) : Int :=
  word (153 * word (month + (if 2 < month then -3 else 9)) + 2) / 5

-- The day number of a date; days beyond the end of a month run on.
def toDay (d : Date) : Int :=
  let month := word d.month
  let year := if month ≤ 2 then d.year - 1 else d.year
  let era := year / 400
  let yearOfEra := year - era * 400
  let dayOfYear := daysBefore month + d.day - 1
  let dayOfEra := word (yearOfEra * 365 + yearOfEra / 4 - yearOfEra / 100 + dayOfYear)
  era * 146097 + dayOfEra - 719468

def ofDay (day : Int) : Date :=
  let z := day + 719468
  let era := z / 146097
  let dayOfEra := z - era * 146097
  let yearOfEra := (dayOfEra - dayOfEra / 1460 + dayOfEra / 36524 - dayOfEra / 146096) / 365
  let dayOfYear := dayOfEra - (365 * yearOfEra + yearOfEra / 4 - yearOfEra / 100)
  let monthFromMarch := (5 * dayOfYear + 2) / 153
  let month := if monthFromMarch < 10 then monthFromMarch + 3 else monthFromMarch - 9
  let year := yearOfEra + era * 400
  ⟨if month ≤ 2 then year + 1 else year, month, dayOfYear - (153 * monthFromMarch + 2) / 5 + 1⟩

def isLeap (year : Int) : Bool := (year % 4 == 0 && year % 100 != 0) || year % 400 == 0

def daysInMonth (year month : Int) : Int :=
  if month = 2 then if isLeap year then 29 else 28
  else if month = 4 ∨ month = 6 ∨ month = 9 ∨ month = 11 then 30
  else 31

end Date

end EntitySql
