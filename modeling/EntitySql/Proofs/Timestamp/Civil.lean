import EntitySql.Proofs.Calendar
import EntitySql.Timestamp

-- Civil times as a spelling of the microseconds: the day of the calendar, then
-- the hours, minutes, seconds and microseconds that fill it.

namespace EntitySql

namespace Civil

def date (c : Civil) : Date := ⟨c.year, c.month, c.day⟩

def secondOfDay (c : Civil) : Int := c.hour * 3600 + c.minute * 60 + c.second

structure IsValid (c : Civil) : Prop where
  date : c.date.IsValid
  hour : 0 ≤ c.hour ∧ c.hour ≤ 23
  minute : 0 ≤ c.minute ∧ c.minute ≤ 59
  second : 0 ≤ c.second ∧ c.second ≤ 59
  microsecond : 0 ≤ c.microsecond ∧ c.microsecond ≤ 999999

theorem eq_of_parts {c d : Civil} (hdate : c.date = d.date) (hhour : c.hour = d.hour)
    (hminute : c.minute = d.minute) (hsecond : c.second = d.second)
    (hmicrosecond : c.microsecond = d.microsecond) : c = d := by
  obtain ⟨year, month, day, hour, minute, second, microsecond⟩ := c
  obtain ⟨rfl, rfl, rfl⟩ := Date.mk.inj hdate
  subst hhour hminute hsecond hmicrosecond
  rfl

end Civil

namespace Timestamp

theorem micros_ofCivil (c : Civil) (zoned : Bool) (offset : Int) :
    (ofCivil c zoned offset).micros =
      c.date.toDay * 86400000000 + c.secondOfDay * 1000000 + c.microsecond := rfl

section Parts

variable (t : Timestamp)

theorem date_civil : t.civil.date = Date.ofDay (t.micros / 86400000000) := by
  have hday : microsPerDay = 86400000000 := rfl
  rw [← hday]
  rfl

theorem hour_civil : t.civil.hour = t.micros % 86400000000 / 1000000 / 3600 := rfl

theorem minute_civil : t.civil.minute = t.micros % 86400000000 / 1000000 % 3600 / 60 := rfl

theorem second_civil : t.civil.second = t.micros % 86400000000 / 1000000 % 60 := rfl

theorem microsecond_civil : t.civil.microsecond = t.micros % 86400000000 % 1000000 := rfl

theorem secondOfDay_civil : t.civil.secondOfDay = t.micros % 86400000000 / 1000000 := by
  rw [Civil.secondOfDay, hour_civil, minute_civil, second_civil]
  omega

theorem isValid_civil : t.civil.IsValid := by
  have hhour := t.hour_civil
  have hminute := t.minute_civil
  have hsecond := t.second_civil
  have hmicrosecond := t.microsecond_civil
  refine ⟨?_, by omega, by omega, by omega, by omega⟩
  rw [date_civil]
  exact Date.isValid_ofDay _

theorem micros_ofCivil_civil (zoned : Bool) (offset : Int) :
    (ofCivil t.civil zoned offset).micros = t.micros := by
  rw [micros_ofCivil, date_civil, Date.toDay_ofDay, secondOfDay_civil, microsecond_civil]
  omega

theorem ofCivil_civil : ofCivil t.civil t.zoned t.offsetMinutes = t := by
  rw [show ofCivil t.civil t.zoned t.offsetMinutes =
    ⟨(ofCivil t.civil t.zoned t.offsetMinutes).micros, t.zoned, t.offsetMinutes⟩ from rfl,
    micros_ofCivil_civil]

end Parts

-- The fields below a day fill less than a day, so that the quotients and
-- remainders find them again.
theorem civil_ofCivil {c : Civil} (h : c.IsValid) (zoned : Bool) (offset : Int) :
    (ofCivil c zoned offset).civil = c := by
  obtain ⟨hdate, hhour, hminute, hsecond, hmicrosecond⟩ := h
  obtain ⟨t, ht⟩ : ∃ t, t = ofCivil c zoned offset := ⟨_, rfl⟩
  have hmicros := micros_ofCivil c zoned offset
  rw [← ht] at hmicros ⊢
  have hseconds : c.secondOfDay = c.hour * 3600 + c.minute * 60 + c.second := rfl
  have hday : t.micros / 86400000000 = c.date.toDay := by omega
  have hrest : t.micros % 86400000000 = c.secondOfDay * 1000000 + c.microsecond := by omega
  have hsecondOfDay : t.micros % 86400000000 / 1000000 = c.secondOfDay := by omega
  have hdates : t.civil.date = c.date := by rw [date_civil, hday, hdate.ofDay_toDay]
  have hhours : t.civil.hour = c.hour := by
    rw [hour_civil, hsecondOfDay]
    omega
  have hminutes : t.civil.minute = c.minute := by
    rw [minute_civil, hsecondOfDay]
    omega
  have hsecs : t.civil.second = c.second := by
    rw [second_civil, hsecondOfDay]
    omega
  have hmicroseconds : t.civil.microsecond = c.microsecond := by
    rw [microsecond_civil, hrest]
    omega
  exact Civil.eq_of_parts hdates hhours hminutes hsecs hmicroseconds

-- Every count of microseconds has one valid civil time, and every valid civil
-- time one count, whatever the zone.
theorem civil_bijective :
    (∀ (t : Timestamp) (zoned : Bool) (offset : Int),
      t.civil.IsValid ∧ (ofCivil t.civil zoned offset).micros = t.micros) ∧
    ∀ (c : Civil) (zoned : Bool) (offset : Int),
      c.IsValid → (ofCivil c zoned offset).civil = c :=
  ⟨fun t zoned offset => ⟨t.isValid_civil, t.micros_ofCivil_civil zoned offset⟩,
    fun _ zoned offset h => civil_ofCivil h zoned offset⟩

-- The last microsecond of a leap day, in a leap century before the year 0.
theorem civil_bijective_leapDay :
    Civil.IsValid ⟨-400, 2, 29, 23, 59, 59, 999999⟩ ∧
      (ofCivil ⟨-400, 2, 29, 23, 59, 59, 999999⟩ true (-90)).micros = -74784816000000001 ∧
      (ofCivil ⟨-400, 2, 29, 23, 59, 59, 999999⟩ true (-90)).civil =
        ⟨-400, 2, 29, 23, 59, 59, 999999⟩ := by
  have hvalid : Civil.IsValid ⟨-400, 2, 29, 23, 59, 59, 999999⟩ := by
    refine ⟨⟨?_, ?_, ?_, ?_⟩, ?_, ?_, ?_, ?_⟩
    all_goals decide
  exact ⟨hvalid, by decide, civil_bijective.2 _ true (-90) hvalid⟩

end Timestamp

end EntitySql
