import EntitySql.Calendar
import EntitySql.Text.Numeral

-- Points in time with microsecond resolution. A timestamp counts from the
-- start of 1970 in the frame of its offset; an unzoned one carries no
-- offset information.

namespace EntitySql

structure Timestamp where
  micros : Int
  zoned : Bool := false
  offsetMinutes : Int := 0
  deriving DecidableEq, Inhabited

-- A date and a time of day, each field as it is written on a clock.
structure Civil where
  year : Int := 1970
  month : Int := 1
  day : Int := 1
  hour : Int := 0
  minute : Int := 0
  second : Int := 0
  microsecond : Int := 0
  deriving DecidableEq, Repr

namespace Civil

-- Months are numbered through, from the first month of the year 0 and downwards
-- before it.
def monthNumber (c : Civil) : Int := c.year * 12 + (c.month - 1)

-- The same time in the month of the given number; a day that the month lacks
-- becomes its last.
def inMonth (c : Civil) (months : Int) : Civil :=
  { c with
    year := months / 12
    month := months % 12 + 1
    day := min c.day (Date.daysInMonth (months / 12) (months % 12 + 1)) }

end Civil

namespace Timestamp

def microsPerSecond : Int := 1000000

def microsPerDay : Int := 86400 * microsPerSecond

def microsPerMinute : Int := 60 * microsPerSecond

def ofUtc (micros : Int) : Timestamp := ⟨micros, true, 0⟩

-- Fields beyond their ranges carry over into the next greater unit.
def ofCivil (c : Civil) (zoned : Bool) (offsetMinutes : Int) : Timestamp :=
  ⟨Date.toDay ⟨c.year, c.month, c.day⟩ * microsPerDay +
    (c.hour * 3600 + c.minute * 60 + c.second) * microsPerSecond + c.microsecond,
    zoned, offsetMinutes⟩

def utcMicros (t : Timestamp) : Int := t.micros - t.offsetMinutes * microsPerMinute

def toUtc (t : Timestamp) : Timestamp := ofUtc t.utcMicros

def civil (t : Timestamp) : Civil :=
  let date := Date.ofDay (t.micros / microsPerDay)
  let rest := t.micros % microsPerDay
  let seconds := rest / microsPerSecond
  ⟨date.year, date.month, date.day, seconds / 3600, seconds % 3600 / 60, seconds % 60,
    rest % microsPerSecond⟩

-- A count of microseconds that 64 bits do not hold starts again at their other end.
def wrapped (t : Timestamp) : Timestamp := { t with micros := (Int64.ofInt t.micros).toInt }

def addMicros (t : Timestamp) (n : Int) : Timestamp := { t with micros := t.micros + n }.wrapped

-- Moves by whole months, whose number is kept in 32 bits.
def addMonths (t : Timestamp) (n : Int) : Timestamp :=
  let months := (Int32.ofInt (t.civil.monthNumber + n)).toInt
  (ofCivil (t.civil.inMonth months) t.zoned t.offsetMinutes).wrapped

-- Equal timestamps are the same instant and agree on having an offset.
def same (a b : Timestamp) : Bool := a.zoned == b.zoned && a.utcMicros == b.utcMicros

def less (a b : Timestamp) : Bool := decide (a.utcMicros < b.utcMicros)

def text (t : Timestamp) : Text :=
  let c := t.civil
  let pad2 := Text.ofIntPadded 2
  let zone :=
    if t.zoned then
      (if t.offsetMinutes < 0 then [Byte.minus] else [Byte.plus]) ++
        Text.ofNatPadded 2 (t.offsetMinutes.natAbs / 60) ++ ":" ++
        Text.ofNatPadded 2 (t.offsetMinutes.natAbs % 60)
    else []
  Text.ofIntPadded 4 c.year ++ "-" ++ pad2 c.month ++ "-" ++ pad2 c.day ++ " " ++
    pad2 c.hour ++ ":" ++ pad2 c.minute ++ ":" ++ pad2 c.second ++ "." ++
    Text.ofIntPadded 6 c.microsecond ++ zone

end Timestamp

end EntitySql
