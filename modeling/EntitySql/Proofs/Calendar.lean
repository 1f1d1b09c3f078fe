import EntitySql.Calendar

-- The calendar as a bijection between day numbers and dates. Counted from
-- March, the day number of a date is the days before its year, the days before
-- its month and its day. Both take the whole line without gaps or overlaps, so
-- that a day number belongs to one date only.

namespace EntitySql.Date

structure IsValid (d : Date) : Prop where
  one_le_month : 1 ≤ d.month
  month_le : d.month ≤ 12
  one_le_day : 1 ≤ d.day
  day_le : d.day ≤ daysInMonth d.year d.month

-- Years and months from March on; January and February end the year before.

def marchYear (d : Date) : Int := if d.month ≤ 2 then d.year - 1 else d.year

def marchMonth (month : Int) : Int := if 2 < month then month - 3 else month + 9

def leapDays (year : Int) : Int := if isLeap year then 1 else 0

def daysBeforeYear (year : Int) : Int := 365 * year + year / 4 - year / 100 + year / 400

def daysBeforeMonth (month : Int) : Int := (153 * month + 2) / 5

theorem leapDays_nonneg (year : Int) : 0 ≤ leapDays year := by
  unfold leapDays
  split <;> decide

theorem leapDays_le (year : Int) : leapDays year ≤ 1 := by
  unfold leapDays
  split <;> decide

theorem leapDays_eq_one {year : Int} (h : 4 ∣ year) (hcentury : ¬100 ∣ year ∨ 400 ∣ year) :
    leapDays year = 1 := by
  have hleap : isLeap year = true := by
    simp only [isLeap, Bool.or_eq_true, Bool.and_eq_true, beq_iff_eq, bne_iff_ne, ne_eq]
    omega
  rw [leapDays, if_pos hleap]

-- A year from March on has the leap day of the year that it ends in.
theorem daysBeforeYear_add_one (year : Int) :
    daysBeforeYear (year + 1) = daysBeforeYear year + 365 + leapDays (year + 1) := by
  unfold daysBeforeYear leapDays isLeap
  by_cases h4 : (year + 1) % 4 = 0
  all_goals by_cases h100 : (year + 1) % 100 = 0
  all_goals by_cases h400 : (year + 1) % 400 = 0
  all_goals
    simp [h4, h100, h400]
    omega

theorem daysBeforeYear_le {year later : Int} (h : year < later) :
    daysBeforeYear (year + 1) ≤ daysBeforeYear later := by
  unfold daysBeforeYear
  omega

theorem daysBeforeYear_add_eras (year eras : Int) :
    daysBeforeYear (year + eras * 400) = daysBeforeYear year + eras * 146097 := by
  unfold daysBeforeYear
  omega

-- A day lies in one year only.
theorem year_eq_of_day_eq {year later day : Int} (hyear : daysBeforeYear year ≤ day)
    (hyear' : day < daysBeforeYear (year + 1)) (hlater : daysBeforeYear later ≤ day)
    (hlater' : day < daysBeforeYear (later + 1)) : year = later := by
  rcases Int.lt_trichotomy year later with h | h | h
  · have := daysBeforeYear_le h
    omega
  · exact h
  · have := daysBeforeYear_le h
    omega

theorem daysInMonth_february (year : Int) : daysInMonth year 2 = 28 + leapDays year := by
  unfold daysInMonth leapDays
  by_cases h : isLeap year <;> simp [h]

theorem daysInMonth_eq {year month : Int} (h : 1 ≤ month) (h' : month ≤ 12) (hne : month ≠ 2) :
    daysInMonth year month =
      daysBeforeMonth (marchMonth month + 1) - daysBeforeMonth (marchMonth month) := by
  have hmonth : month = 1 ∨ month = 3 ∨ month = 4 ∨ month = 5 ∨ month = 6 ∨ month = 7 ∨
      month = 8 ∨ month = 9 ∨ month = 10 ∨ month = 11 ∨ month = 12 := by omega
  rcases hmonth with rfl | rfl | rfl | rfl | rfl | rfl | rfl | rfl | rfl | rfl | rfl <;> rfl

-- The year of an era of 400 years is found by taking the leap days off.

def yearOfEra (day : Int) : Int := (day - day / 1460 + day / 36524 - day / 146096) / 365

-- Centuries of the era, leap cycles of the century, years of the cycle and days
-- of the year. Only the last year of a cycle may have a leap day, and the last
-- cycle of a century has none but in the last century.
theorem exists_parts {day : Int} (h : 0 ≤ day) (h' : day < 146097) :
    ∃ century cycle year rest : Int, day = 36524 * century + 1461 * cycle + 365 * year + rest ∧
      (0 ≤ century ∧ century ≤ 3) ∧ (0 ≤ cycle ∧ cycle ≤ 24) ∧ (0 ≤ year ∧ year ≤ 3) ∧ 0 ≤ rest ∧
      (rest ≤ 364 ∨ rest = 365 ∧ year = 3 ∧ (cycle ≠ 24 ∨ century = 3)) := by
  obtain ⟨century, hcentury⟩ : ∃ n, n = min 3 (day / 36524) := ⟨_, rfl⟩
  obtain ⟨cycle, hcycle⟩ : ∃ n, n = (day - 36524 * century) / 1461 := ⟨_, rfl⟩
  obtain ⟨year, hyear⟩ : ∃ n, n = min 3 ((day - 36524 * century - 1461 * cycle) / 365) :=
    ⟨_, rfl⟩
  refine ⟨century, cycle, year, day - 36524 * century - 1461 * cycle - 365 * year, ?_⟩
  omega

section Era

variable {century cycle year rest : Int} (hcentury : 0 ≤ century ∧ century ≤ 3)
variable (hcycle : 0 ≤ cycle ∧ cycle ≤ 24) (hyear : 0 ≤ year ∧ year ≤ 3)

include hcentury hcycle hyear

theorem daysBeforeYear_parts :
    daysBeforeYear (100 * century + 4 * cycle + year) =
      36524 * century + 1461 * cycle + 365 * year := by
  have h4 : (100 * century + 4 * cycle + year) / 4 = 25 * century + cycle := by omega
  have h100 : (100 * century + 4 * cycle + year) / 100 = century := by omega
  have h400 : (100 * century + 4 * cycle + year) / 400 = 0 := by omega
  rw [daysBeforeYear, h4, h100, h400]
  omega

variable (hrest : 0 ≤ rest)
variable (hleap : rest ≤ 364 ∨ rest = 365 ∧ year = 3 ∧ (cycle ≠ 24 ∨ century = 3))

include hrest hleap

theorem yearOfEra_parts :
    yearOfEra (36524 * century + 1461 * cycle + 365 * year + rest) =
      100 * century + 4 * cycle + year := by
  by_cases hlast : century = 3 ∧ cycle = 24 ∧ year = 3 ∧ rest = 365
  · obtain ⟨rfl, rfl, rfl, rfl⟩ := hlast
    decide
  · obtain ⟨day, hday⟩ : ∃ n, n = 36524 * century + 1461 * cycle + 365 * year + rest := ⟨_, rfl⟩
    have hera : day / 146096 = 0 := by omega
    have hcenturies : day / 36524 = century := by omega
    have hcycles : day / 1460 =
        25 * century + cycle + (24 * century + cycle + 365 * year + rest) / 1460 := by omega
    rw [← hday, yearOfEra, hera, hcenturies, hcycles]
    omega

omit hcentury in
theorem rest_lt_year : rest < 365 + leapDays (100 * century + 4 * cycle + year + 1) := by
  rcases hleap with hleap | ⟨rfl, rfl, hleap⟩
  · have := leapDays_nonneg (100 * century + 4 * cycle + year + 1)
    omega
  · rw [leapDays_eq_one (by omega) (by omega)]
    decide

end Era

theorem yearOfEra_spec {day : Int} (h : 0 ≤ day) (h' : day < 146097) :
    (0 ≤ yearOfEra day ∧ yearOfEra day < 400) ∧ daysBeforeYear (yearOfEra day) ≤ day ∧
      day < daysBeforeYear (yearOfEra day + 1) := by
  obtain ⟨century, cycle, year, rest, rfl, hcentury, hcycle, hyear, hrest, hleap⟩ :=
    exists_parts h h'
  have hlt := rest_lt_year hcycle hyear hrest hleap
  rw [yearOfEra_parts hcentury hcycle hyear hrest hleap, daysBeforeYear_add_one,
    daysBeforeYear_parts hcentury hcycle hyear]
  omega

-- The day number of a date.

theorem daysBefore_eq {month : Int} (h : 1 ≤ month) (h' : month ≤ 12) :
    daysBefore month = daysBeforeMonth (marchMonth month) := by
  unfold daysBefore daysBeforeMonth marchMonth word
  split <;> omega

namespace IsValid

variable {d d' : Date}

theorem daysBeforeMonth_add_day_le (h : d.IsValid) :
    daysBeforeMonth (marchMonth d.month) + d.day ≤ daysBeforeMonth (marchMonth d.month + 1) := by
  obtain ⟨hmonth, hmonth', hday, hday'⟩ := h
  by_cases hfebruary : d.month = 2
  · have hleap := leapDays_le d.year
    have hlast : daysBeforeMonth (marchMonth 2) = 337 := rfl
    have hnext : daysBeforeMonth (marchMonth 2 + 1) = 367 := rfl
    rw [hfebruary, daysInMonth_february] at hday'
    rw [hfebruary]
    omega
  · rw [daysInMonth_eq hmonth hmonth' hfebruary] at hday'
    omega

theorem day_lt_year (h : d.IsValid) :
    daysBeforeMonth (marchMonth d.month) + d.day ≤ 365 + leapDays (d.marchYear + 1) := by
  have hinside := h.daysBeforeMonth_add_day_le
  obtain ⟨hmonth, hmonth', hday, hday'⟩ := h
  by_cases hfebruary : d.month = 2
  · have hyear : d.marchYear + 1 = d.year := by
      rw [marchYear, if_pos (by omega)]
      omega
    have hlast : daysBeforeMonth (marchMonth 2) = 337 := rfl
    rw [hfebruary, daysInMonth_february] at hday'
    rw [hyear, hfebruary]
    omega
  · have hnext : daysBeforeMonth (marchMonth d.month + 1) ≤ 337 := by
      unfold daysBeforeMonth marchMonth
      split <;> omega
    have := leapDays_nonneg (d.marchYear + 1)
    omega

theorem toDay_eq (h : d.IsValid) :
    d.toDay =
      daysBeforeYear d.marchYear + daysBeforeMonth (marchMonth d.month) + d.day - 719469 := by
  have hinside := h.daysBeforeMonth_add_day_le
  obtain ⟨hmonth, hmonth', hday, -⟩ := h
  have hword : word d.month = d.month := by
    unfold word
    omega
  have hbefore : 0 ≤ daysBeforeMonth (marchMonth d.month) := by
    unfold daysBeforeMonth marchMonth
    split <;> omega
  have hnext : daysBeforeMonth (marchMonth d.month + 1) ≤ 367 := by
    unfold daysBeforeMonth marchMonth
    split <;> omega
  obtain ⟨era, hera⟩ : ∃ n, n = d.marchYear / 400 := ⟨_, rfl⟩
  obtain ⟨year, hyear⟩ : ∃ n, n = d.marchYear - era * 400 := ⟨_, rfl⟩
  have hdays : daysBeforeYear d.marchYear = year * 365 + year / 4 - year / 100 + era * 146097 := by
    have hfirst : year / 400 = 0 := by omega
    rw [show d.marchYear = year + era * 400 by omega, daysBeforeYear_add_eras, daysBeforeYear,
      hfirst]
    omega
  rw [toDay, hword, ← marchYear, ← hera, ← hyear, daysBefore_eq hmonth hmonth', hdays]
  unfold word
  omega

-- What is left of the day number behind the days before the year.
theorem toDay_in_year (h : d.IsValid) : daysBeforeYear d.marchYear ≤ d.toDay + 719468 ∧
    d.toDay + 719468 < daysBeforeYear (d.marchYear + 1) := by
  have hyear := h.day_lt_year
  have hbefore : 0 ≤ daysBeforeMonth (marchMonth d.month) := by
    have := h.one_le_month
    unfold daysBeforeMonth marchMonth
    split <;> omega
  have hday := h.one_le_day
  rw [h.toDay_eq, daysBeforeYear_add_one]
  omega

theorem marchMonth_eq (h : d.IsValid) : marchMonth d.month =
    (5 * (d.toDay + 719468 - daysBeforeYear d.marchYear) + 2) / 153 := by
  have hinside := h.daysBeforeMonth_add_day_le
  have hday := h.one_le_day
  rw [h.toDay_eq]
  unfold daysBeforeMonth at hinside ⊢
  omega

-- A day is in one year only, and in one month of it.
theorem eq_of_toDay_eq (h : d.IsValid) (h' : d'.IsValid) (heq : d.toDay = d'.toDay) : d = d' := by
  obtain ⟨hyear, hyear'⟩ := h.toDay_in_year
  obtain ⟨hother, hother'⟩ := h'.toDay_in_year
  rw [← heq] at hother hother'
  have hmarchYear : d.marchYear = d'.marchYear := year_eq_of_day_eq hyear hyear' hother hother'
  have hmarchMonth : marchMonth d.month = marchMonth d'.month := by
    rw [h.marchMonth_eq, h'.marchMonth_eq, heq, hmarchYear]
  have hday : d.day = d'.day := by
    rw [h.toDay_eq, h'.toDay_eq, hmarchYear, hmarchMonth] at heq
    omega
  obtain ⟨hmonth, hmonth', -, -⟩ := h
  obtain ⟨hother, hother', -, -⟩ := h'
  have hmonths : d.month = d'.month := by
    unfold marchMonth at hmarchMonth
    split at hmarchMonth <;> split at hmarchMonth <;> omega
  have hyears : d.year = d'.year := by
    unfold marchYear at hmarchYear
    rw [hmonths] at hmarchYear
    split at hmarchYear <;> omega
  cases d
  cases d'
  simp only at hmonths hyears hday
  rw [hmonths, hyears, hday]

end IsValid

-- The date of a day number, by its year from March on and the day of that year.

def ofYearDay (year day : Int) : Date :=
  let marchMonth := (5 * day + 2) / 153
  let month := if marchMonth < 10 then marchMonth + 3 else marchMonth - 9
  ⟨if month ≤ 2 then year + 1 else year, month, day - daysBeforeMonth marchMonth + 1⟩

theorem ofDay_eq (day : Int) :
    ∃ year rest, ofDay day = ofYearDay year rest ∧ day + 719468 = daysBeforeYear year + rest ∧
      0 ≤ rest ∧ rest < 365 + leapDays (year + 1) := by
  obtain ⟨era, hera⟩ : ∃ n, n = (day + 719468) / 146097 := ⟨_, rfl⟩
  obtain ⟨dayOfEra, hdayOfEra⟩ : ∃ n, n = day + 719468 - era * 146097 := ⟨_, rfl⟩
  obtain ⟨⟨hyear, hyear'⟩, hstart, hend⟩ := yearOfEra_spec (by omega : 0 ≤ dayOfEra) (by omega)
  obtain ⟨year, hyearOfEra⟩ : ∃ n, n = yearOfEra dayOfEra := ⟨_, rfl⟩
  rw [← hyearOfEra] at hyear hyear' hstart hend
  have hbefore : daysBeforeYear year = 365 * year + year / 4 - year / 100 := by
    unfold daysBeforeYear
    omega
  have hdays := daysBeforeYear_add_eras year era
  have hnext := daysBeforeYear_add_one (year + era * 400)
  have hnext' := daysBeforeYear_add_eras (year + 1) era
  rw [show year + 1 + era * 400 = year + era * 400 + 1 by omega] at hnext'
  refine ⟨year + era * 400, dayOfEra - daysBeforeYear year, ?_, by omega, by omega, by omega⟩
  rw [hbefore, hyearOfEra, hdayOfEra, hera]
  rfl

section YearDay

variable {year rest : Int}

theorem marchYear_ofYearDay : (ofYearDay year rest).marchYear = year := by
  unfold marchYear ofYearDay
  dsimp only
  split <;> omega

variable (hrest : 0 ≤ rest) (hlt : rest < 365 + leapDays (year + 1))

include hrest hlt

theorem month_ofYearDay :
    (1 ≤ (ofYearDay year rest).month ∧ (ofYearDay year rest).month ≤ 12) ∧
      marchMonth (ofYearDay year rest).month = (5 * rest + 2) / 153 := by
  have hleap := leapDays_le (year + 1)
  unfold marchMonth ofYearDay
  dsimp only
  split <;> split <;> omega

theorem isValid_ofYearDay : (ofYearDay year rest).IsValid := by
  have hleap := leapDays_le (year + 1)
  obtain ⟨⟨hmonth, hmonth'⟩, hmarch⟩ := month_ofYearDay hrest hlt
  have hday : (ofYearDay year rest).day = rest - daysBeforeMonth ((5 * rest + 2) / 153) + 1 := rfl
  refine ⟨hmonth, hmonth', ?_, ?_⟩
  · rw [hday, daysBeforeMonth]
    omega
  · by_cases hfebruary : (ofYearDay year rest).month = 2
    · have hlast : daysBeforeMonth (marchMonth 2) = 337 := rfl
      have hyear : (ofYearDay year rest).year = year + 1 := if_pos (Int.le_of_eq hfebruary)
      rw [hfebruary] at hmarch
      rw [hday, ← hmarch, hlast, hyear, hfebruary, daysInMonth_february]
      omega
    · rw [daysInMonth_eq hmonth hmonth' hfebruary, hmarch, hday]
      unfold daysBeforeMonth
      omega

theorem toDay_ofYearDay :
    (ofYearDay year rest).toDay = daysBeforeYear year + rest - 719468 := by
  have hday : (ofYearDay year rest).day = rest - daysBeforeMonth ((5 * rest + 2) / 153) + 1 := rfl
  rw [(isValid_ofYearDay hrest hlt).toDay_eq, marchYear_ofYearDay,
    (month_ofYearDay hrest hlt).2, hday]
  omega

end YearDay

theorem isValid_ofDay (day : Int) : (ofDay day).IsValid := by
  obtain ⟨year, rest, heq, -, hrest, hlt⟩ := ofDay_eq day
  rw [heq]
  exact isValid_ofYearDay hrest hlt

theorem toDay_ofDay (day : Int) : (ofDay day).toDay = day := by
  obtain ⟨year, rest, heq, hday, hrest, hlt⟩ := ofDay_eq day
  rw [heq, toDay_ofYearDay hrest hlt]
  omega

theorem IsValid.ofDay_toDay {d : Date} (h : d.IsValid) : ofDay d.toDay = d :=
  (isValid_ofDay d.toDay).eq_of_toDay_eq h (toDay_ofDay d.toDay)

end EntitySql.Date
