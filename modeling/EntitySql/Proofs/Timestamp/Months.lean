import EntitySql.Proofs.Text.Integer
import EntitySql.Proofs.Timestamp.Civil

-- Moves by months. A move adds to the number of the month, and of all other fields it
-- changes the day only. The number of the new month is kept in 32 bits and the count of
-- microseconds in 64, so a move is exact as long as both have room.

namespace EntitySql

theorem Date.le_daysInMonth (year month : Int) : 28 ≤ daysInMonth year month := by
  unfold daysInMonth
  split
  · split <;> decide
  · split <;> decide

namespace Civil

variable {c : Civil}

theorem monthNumber_inMonth (c : Civil) (months : Int) :
    (c.inMonth months).monthNumber = months := by
  show months / 12 * 12 + (months % 12 + 1 - 1) = months
  omega

theorem IsValid.inMonth (h : c.IsValid) (months : Int) : (c.inMonth months).IsValid := by
  have hlast := Date.le_daysInMonth (months / 12) (months % 12 + 1)
  have hday : 1 ≤ c.day := h.date.one_le_day
  have hdate : (c.inMonth months).date.IsValid := by
    constructor
    · show 1 ≤ months % 12 + 1
      omega
    · show months % 12 + 1 ≤ 12
      omega
    · exact Int.le_min.mpr ⟨hday, by omega⟩
    · exact Int.min_le_right ..
  exact ⟨hdate, h.hour, h.minute, h.second, h.microsecond⟩

-- Every month has the first 28 days, so that such a day survives any month on
-- the way.
theorem inMonth_inMonth (h : c.day ≤ 28) (months later : Int) :
    (c.inMonth months).inMonth later = c.inMonth later := by
  have hlast := Date.le_daysInMonth (months / 12) (months % 12 + 1)
  have hday : (c.inMonth months).day = c.day := Int.min_eq_left (by omega)
  show { c with
    year := later / 12
    month := later % 12 + 1
    day := min (c.inMonth months).day (Date.daysInMonth (later / 12) (later % 12 + 1)) } = _
  rw [hday]
  rfl

end Civil

namespace Timestamp

theorem wrapped_eq_iff {t : Timestamp} : t.wrapped = t ↔ Text.inWord 64 t.micros = true := by
  rw [← Text.toInt_ofInt_iff]
  constructor
  · exact congrArg micros
  · intro h
    rw [wrapped, h]

-- The timestamp that is later by exactly so many months, whether or not there is room
-- for it.
def monthsLater (t : Timestamp) (n : Int) : Timestamp :=
  ofCivil (t.civil.inMonth (t.civil.monthNumber + n)) t.zoned t.offsetMinutes

theorem civil_monthsLater (t : Timestamp) (n : Int) :
    (t.monthsLater n).civil = t.civil.inMonth (t.civil.monthNumber + n) :=
  civil_ofCivil (t.isValid_civil.inMonth _) _ _

theorem monthNumber_monthsLater (t : Timestamp) (n : Int) :
    (t.monthsLater n).civil.monthNumber = t.civil.monthNumber + n := by
  rw [civil_monthsLater, Civil.monthNumber_inMonth]

section Word

variable {t : Timestamp} {n : Int}

theorem addMonths_of_inWord (h : Text.inWord 32 (t.civil.monthNumber + n) = true) :
    t.addMonths n = (t.monthsLater n).wrapped := by
  rw [addMonths, Text.toInt32_ofInt_iff.mpr h]
  rfl

theorem inWord_addMonths (t : Timestamp) (n : Int) :
    Text.inWord 64 (t.addMonths n).micros = true :=
  Text.inWord_toInt _

-- Months that differ by whole words of 32 bits move alike.
theorem addMonths_bmod (t : Timestamp) (n : Int) :
    t.addMonths (n.bmod 4294967296) = t.addMonths n := by
  have hmonths : Int32.ofInt (t.civil.monthNumber + n.bmod 4294967296) =
      Int32.ofInt (t.civil.monthNumber + n) := by
    apply Int32.toInt_inj.mp
    rw [Int32.toInt_ofInt, Int32.toInt_ofInt]
    exact Int.add_bmod_bmod
  rw [addMonths, addMonths, hmonths]

-- The microseconds of a word span fewer than ten million months, far from the limits of
-- 32 bits.

theorem year_ofDay_bounds {day : Int} (h : -106751992 ≤ day) (h' : day ≤ 106751991) :
    -300000 ≤ (Date.ofDay day).year ∧ (Date.ofDay day).year ≤ 300000 := by
  simp only [Date.ofDay]
  omega

theorem monthNumber_bounds (h : Text.inWord 64 t.micros = true) :
    -4000000 ≤ t.civil.monthNumber ∧ t.civil.monthNumber ≤ 4000000 := by
  have hword := Text.inWord64_iff.mp h
  have hfirstDay : -106751992 ≤ t.micros / 86400000000 := by omega
  have hlastDay : t.micros / 86400000000 ≤ 106751991 := by omega
  have hyear := year_ofDay_bounds hfirstDay hlastDay
  rw [← date_civil] at hyear
  have hfirst : 1 ≤ t.civil.month := t.isValid_civil.date.one_le_month
  have hlast : t.civil.month ≤ 12 := t.isValid_civil.date.month_le
  have hnumber : t.civil.monthNumber = t.civil.year * 12 + (t.civil.month - 1) := rfl
  have hdate : t.civil.date.year = t.civil.year := rfl
  omega

-- A word that holds the microseconds of a timestamp holds the number of its month.
theorem addMonths_eq_monthsLater_iff :
    t.addMonths n = t.monthsLater n ↔ Text.inWord 64 (t.monthsLater n).micros = true := by
  constructor
  · intro h
    rw [← h]
    exact t.inWord_addMonths n
  · intro h
    have hbounds := monthNumber_bounds h
    rw [monthNumber_monthsLater] at hbounds
    rw [addMonths_of_inWord (Text.inWord32_iff.mpr (by omega)), wrapped_eq_iff.mpr h]

end Word

-- The number of the month that a second move starts from is the sum, so only the
-- first has to be exact.
theorem addMonths_monthsLater {t : Timestamp} (h : t.civil.day ≤ 28) (m n : Int) :
    (t.monthsLater m).addMonths n = t.addMonths (m + n) := by
  rw [addMonths, addMonths, monthNumber_monthsLater, civil_monthsLater, Civil.inMonth_inMonth h,
    Int.add_assoc]
  rfl

-- If 64 bits hold the timestamp that is so many months later, it is the one that the move
-- returns. It adds to the number of the month, takes the day or the last of the new month,
-- and keeps the time of day and the zone. Moves add up as long as the day is one that
-- every month has.
theorem addMonths_exact :
    (∀ (t : Timestamp) (n : Int), Text.inWord 64 (t.monthsLater n).micros = true →
      t.addMonths n = t.monthsLater n ∧
      (t.addMonths n).civil.monthNumber = t.civil.monthNumber + n ∧
      (t.addMonths n).civil.day = min t.civil.day
        (Date.daysInMonth (t.addMonths n).civil.year (t.addMonths n).civil.month) ∧
      ((t.addMonths n).civil.hour = t.civil.hour ∧
        (t.addMonths n).civil.minute = t.civil.minute ∧
        (t.addMonths n).civil.second = t.civil.second ∧
        (t.addMonths n).civil.microsecond = t.civil.microsecond) ∧
      (t.addMonths n).zoned = t.zoned ∧ (t.addMonths n).offsetMinutes = t.offsetMinutes) ∧
    ∀ (t : Timestamp) (m n : Int), t.civil.day ≤ 28 →
      Text.inWord 64 (t.monthsLater m).micros = true →
      t.addMonths (m + n) = (t.addMonths m).addMonths n := by
  refine ⟨fun t n h => ?_, fun t m n hday h => ?_⟩
  · rw [addMonths_eq_monthsLater_iff.mpr h, civil_monthsLater, Civil.monthNumber_inMonth]
    exact ⟨rfl, rfl, rfl, ⟨rfl, rfl, rfl, rfl⟩, rfl, rfl⟩
  · rw [addMonths_eq_monthsLater_iff.mpr h, addMonths_monthsLater hday]

-- From March of the year 1 into February of the year 0, a leap year, and on to
-- December of the year before.
theorem addMonths_exact_beforeYearZero :
    (ofCivil ⟨1, 3, 28, 23, 59, 59, 999999⟩ true (-90)).civil.day ≤ 28 ∧
      (ofCivil ⟨1, 3, 28, 23, 59, 59, 999999⟩ true (-90)).addMonths (-13 + -2) =
        ((ofCivil ⟨1, 3, 28, 23, 59, 59, 999999⟩ true (-90)).addMonths (-13)).addMonths (-2) ∧
      ((ofCivil ⟨1, 3, 28, 23, 59, 59, 999999⟩ true (-90)).addMonths (-15)).civil =
        ⟨-1, 12, 28, 23, 59, 59, 999999⟩ ∧
      ((ofCivil ⟨1, 3, 28, 23, 59, 59, 999999⟩ true (-90)).addMonths (-13)).civil.monthNumber =
        (ofCivil ⟨1, 3, 28, 23, 59, 59, 999999⟩ true (-90)).civil.monthNumber - 13 := by
  have hday : (ofCivil ⟨1, 3, 28, 23, 59, 59, 999999⟩ true (-90)).civil.day ≤ 28 := by decide
  have hword : Text.inWord 64
      ((ofCivil ⟨1, 3, 28, 23, 59, 59, 999999⟩ true (-90)).monthsLater (-13)).micros = true := by
    decide
  exact ⟨hday, addMonths_exact.2 _ (-13) (-2) hday hword, by decide,
    (addMonths_exact.1 _ (-13) hword).2.1⟩

-- The last day of March becomes the last day of February of the year before.
example : ((ofCivil ⟨2024, 3, 31, 10, 30, 0, 0⟩ true 0).addMonths (-13)).civil =
    ⟨2023, 2, 28, 10, 30, 0, 0⟩ := by decide

end Timestamp

end EntitySql
