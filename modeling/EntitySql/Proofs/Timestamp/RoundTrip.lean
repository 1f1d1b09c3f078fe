import EntitySql.Proofs.Text.Numeral
import EntitySql.Proofs.Text.Span
import EntitySql.Proofs.Timestamp.Civil
import EntitySql.Value.Reader
import Mathlib.Tactic.Lift

-- A written timestamp reads back. The text is a row of fields of fixed width,
-- and every field is read off the front without regard to what stands behind.

namespace EntitySql.Timestamp

def dateText (year month day : Nat) (rest : Text) : Text :=
  Text.ofNatPadded 4 year ++ Byte.minus :: (Text.ofNatPadded 2 month ++ Byte.minus ::
    (Text.ofNatPadded 2 day ++ rest))

def timeText (hour minute second : Nat) (rest : Text) : Text :=
  Text.ofNatPadded 2 hour ++ Byte.colon :: (Text.ofNatPadded 2 minute ++ Byte.colon ::
    (Text.ofNatPadded 2 second ++ rest))

def zoneText (zoned : Bool) (offset : Int) : Text :=
  if zoned then
    (if offset < 0 then Byte.minus else Byte.plus) :: (Text.ofNatPadded 2 (offset.natAbs / 60) ++
      Byte.colon :: Text.ofNatPadded 2 (offset.natAbs % 60))
  else []

theorem takeByte?_cons (c : UInt8) (rest : Text) : takeByte? c (c :: rest) = some rest :=
  if_pos rfl

theorem takeDate?_dateText {year month day : Nat} (h : Date.IsValid ⟨year, month, day⟩)
    (hyear : year < 10000) (rest : Text) :
    takeDate? (dateText year month day rest) = some (⟨year, month, day⟩, rest) := by
  obtain ⟨hmonth, hmonth', hday, hday'⟩ := h
  dsimp only at hmonth hmonth' hday hday'
  have hlast : Date.daysInMonth year month ≤ 31 := by
    unfold Date.daysInMonth
    split
    · split <;> decide
    · split <;> decide
  have hyears := Text.takeDigits?_ofNatPadded 3 hyear
  have hmonths := Text.takeDigits?_ofNatPadded 1 (by omega : month < 100)
  have hdays := Text.takeDigits?_ofNatPadded 1 (by omega : day < 100)
  simp only [takeDate?, dateText, hyears, takeByte?_cons, hmonths, hdays, Option.bind_eq_bind,
    Option.bind_some]
  rw [if_pos]
  simp only [Bool.and_eq_true, decide_eq_true_eq]
  omega

theorem takeTime?_timeText {hour minute second : Nat} (hhour : hour ≤ 23) (hminute : minute ≤ 59)
    (hsecond : second ≤ 59) (rest : Text) :
    takeTime? (timeText hour minute second rest) = some ((hour, minute, second), rest) := by
  have hhours := Text.takeDigits?_ofNatPadded 1 (by omega : hour < 100)
  have hminutes := Text.takeDigits?_ofNatPadded 1 (by omega : minute < 100)
  have hseconds := Text.takeDigits?_ofNatPadded 1 (by omega : second < 100)
  simp only [takeTime?, timeText, hhours, takeByte?_cons, hminutes, Option.bind_eq_bind,
    Option.bind_some]
  split
  · next heq =>
    obtain rfl := (List.cons.inj heq).2
    rw [hseconds, Option.bind_some, if_pos]
    simp only [Bool.and_eq_true, decide_eq_true_eq]
    omega
  · next hne => exact absurd rfl (hne _)

-- The digits end before the zone, which is no digit.
theorem takeFraction?_cons {micro : Nat} (h : micro < 1000000) {rest : Text}
    (hrest : ∀ c ∈ rest.head?, Byte.isDigit c = false) :
    takeFraction? (Byte.dot :: (Text.ofNatPadded 6 micro ++ rest)) = some (micro, rest) := by
  have hlength := Text.length_ofNatPadded 5 h
  have hdigits (c : UInt8) (hc : c ∈ Text.ofNatPadded 6 micro) : Byte.isDigit c = true :=
    Text.isDigit_of_mem_ofNatPadded hc
  have htake : (Text.ofNatPadded 6 micro ++ rest).takeWhile Byte.isDigit =
      Text.ofNatPadded 6 micro := Text.takeWhile_append_of_stop hdigits hrest
  have hdrop : (Text.ofNatPadded 6 micro ++ rest).dropWhile Byte.isDigit = rest :=
    Text.dropWhile_append_of_stop hdigits hrest
  unfold takeFraction?
  split
  · next heq =>
    obtain rfl := (List.cons.inj heq).2
    rw [htake, hdrop]
    dsimp only
    rw [Text.isEmpty_ofNatPadded, List.take_of_length_le (Nat.le_of_eq hlength), hlength,
      Text.digitsValue_ofNatPadded]
    simp
  · next hne => exact absurd rfl (hne _)

theorem zone?_cons {sign : UInt8} (hsign : sign = Byte.plus ∨ sign = Byte.minus)
    {hours minutes : Nat} (hhours : hours < 100) (hminutes : minutes < 100) :
    zone? (sign :: (Text.ofNatPadded 2 hours ++ Byte.colon :: Text.ofNatPadded 2 minutes)) =
      some (true, if sign = Byte.minus then -(hours * 60 + minutes : Int)
        else hours * 60 + minutes) := by
  have htakeHours := Text.takeDigits?_ofNatPadded 1 hhours
  have htakeMinutes := Text.takeDigits?_ofNatPadded 1 hminutes []
  rw [List.append_nil] at htakeMinutes
  have hletter : (sign = 0x5a || sign = 0x7a) = false := by
    rcases hsign with rfl | rfl <;> decide
  have hsigned : (sign = Byte.plus || sign = Byte.minus) = true := by
    rcases hsign with rfl | rfl <;> decide
  rw [zone?, hletter, hsigned, if_neg Bool.false_ne_true, if_pos rfl, htakeHours]
  change (if (Text.ofNatPadded 2 minutes).isEmpty = true then _ else
    (Text.takeDigits? 2 (Text.ofNatPadded 2 minutes)).bind _) = _
  rw [Text.isEmpty_ofNatPadded, htakeMinutes]
  rfl

theorem zone?_zoneText {zoned : Bool} {offset : Int}
    (h : zoned = true ∧ -5999 ≤ offset ∧ offset ≤ 5999 ∨ zoned = false ∧ offset = 0) :
    zone? (zoneText zoned offset) = some (zoned, offset) := by
  rcases h with ⟨rfl, hlow, hhigh⟩ | ⟨rfl, rfl⟩
  · have hhours : offset.natAbs / 60 < 100 := by omega
    have hminutes : offset.natAbs % 60 < 100 := by omega
    by_cases hsign : offset < 0
    · rw [zoneText, if_pos rfl, if_pos hsign, zone?_cons (.inr rfl) hhours hminutes, if_pos rfl]
      congr 2
      omega
    · rw [zoneText, if_pos rfl, if_neg hsign, zone?_cons (.inl rfl) hhours hminutes,
        if_neg (by decide)]
      congr 2
      omega
  · rfl

theorem head_zoneText (zoned : Bool) (offset : Int) :
    ∀ c ∈ (zoneText zoned offset).head?, Byte.isDigit c = false := by
  intro c hc
  unfold zoneText at hc
  split at hc
  · obtain rfl := Option.some.inj hc
    split <;> rfl
  · cases hc

-- Years before 0 alone are written with a sign.
theorem exists_nat_of_isValid {c : Civil} (h : c.IsValid) (hyear : 0 ≤ c.year) :
    ∃ year month day hour minute second micro : Nat,
      c = ⟨year, month, day, hour, minute, second, micro⟩ := by
  obtain ⟨⟨hmonth, -, hday, -⟩, hhour, hminute, hsecond, hmicro⟩ := h
  obtain ⟨year, month, day, hour, minute, second, micro⟩ := c
  replace hmonth : 0 ≤ month := Int.le_trans (by decide) hmonth
  replace hday : 0 ≤ day := Int.le_trans (by decide) hday
  lift year to Nat using hyear
  lift month to Nat using hmonth
  lift day to Nat using hday
  lift hour to Nat using hhour.1
  lift minute to Nat using hminute.1
  lift second to Nat using hsecond.1
  lift micro to Nat using hmicro.1
  exact ⟨year, month, day, hour, minute, second, micro, rfl⟩

section Text

variable {t : Timestamp} {year month day hour minute second micro : Nat}
variable (hcivil : t.civil = ⟨year, month, day, hour, minute, second, micro⟩)

include hcivil

theorem text_eq : t.text = dateText year month day (Byte.space :: timeText hour minute second
    (Byte.dot :: (Text.ofNatPadded 6 micro ++ zoneText t.zoned t.offsetMinutes))) := by
  have hzone : (if t.zoned then
      (if t.offsetMinutes < 0 then [Byte.minus] else [Byte.plus]) ++
        Text.ofNatPadded 2 (t.offsetMinutes.natAbs / 60) ++ ":" ++
        Text.ofNatPadded 2 (t.offsetMinutes.natAbs % 60)
      else []) = zoneText t.zoned t.offsetMinutes := by
    unfold zoneText
    split
    · split <;> simp <;> rfl
    · rfl
  rw [text, hcivil, hzone]
  simp only [dateText, timeText, List.append_assoc]
  rfl

theorem read?_text (hyear : year < 10000)
    (hzone : t.zoned = true ∧ -5999 ≤ t.offsetMinutes ∧ t.offsetMinutes ≤ 5999 ∨
      t.zoned = false ∧ t.offsetMinutes = 0) : read? t.text = some t := by
  obtain ⟨hdate, hhour, hminute, hsecond, hmicro⟩ := hcivil ▸ t.isValid_civil
  dsimp only at hhour hminute hsecond hmicro
  have hsame := t.ofCivil_civil
  rw [hcivil] at hsame
  have hdates := takeDate?_dateText hdate hyear
  have htimes := takeTime?_timeText (by omega : hour ≤ 23) (by omega : minute ≤ 59)
    (by omega : second ≤ 59)
  have hfractions := takeFraction?_cons (by omega : micro < 1000000)
    (head_zoneText t.zoned t.offsetMinutes)
  have hzones := zone?_zoneText hzone
  rw [text_eq hcivil, read?, hdates]
  simp only [Option.bind_eq_bind, Option.bind_some]
  rw [if_pos (by decide), htimes]
  simp only [Option.bind_some, hfractions, hzones, hsame]

end Text

-- Four digits hold the years 0 to 9999, and two the hours of an offset. A zone
-- is written for zoned timestamps only.
theorem ofText_of_text {t : Timestamp} (hyear : 0 ≤ t.civil.year ∧ t.civil.year ≤ 9999)
    (hzone : t.zoned = true ∧ -5999 ≤ t.offsetMinutes ∧ t.offsetMinutes ≤ 5999 ∨
      t.zoned = false ∧ t.offsetMinutes = 0) : ofText t.text = .ok t := by
  obtain ⟨year, month, day, hour, minute, second, micro, hcivil⟩ :=
    exists_nat_of_isValid t.isValid_civil hyear.1
  have hyears : (year : Int) ≤ 9999 := by
    rw [hcivil] at hyear
    exact hyear.2
  rw [ofText, read?_text hcivil (by omega) hzone]

-- Less than an hour behind, where the sign stands before two zeros.
theorem ofText_of_text_leapDay :
    (ofCivil ⟨2024, 2, 29, 23, 59, 59, 7⟩ true (-30)).text =
        ("2024-02-29 23:59:59.000007-00:30" : Text) ∧
      ofText ("2024-02-29 23:59:59.000007-00:30" : Text) =
        .ok (ofCivil ⟨2024, 2, 29, 23, 59, 59, 7⟩ true (-30)) := by
  have htext : (ofCivil ⟨2024, 2, 29, 23, 59, 59, 7⟩ true (-30)).text =
      ("2024-02-29 23:59:59.000007-00:30" : Text) := by decide
  refine ⟨htext, ?_⟩
  rw [← htext]
  exact ofText_of_text (by decide) (.inl (by decide))

end EntitySql.Timestamp
