import EntitySql.Conversion.Generic
import EntitySql.Proofs.Binary64.Rational
import EntitySql.Proofs.Text.Integer

-- Conversions to integers. A value is taken for the integer that it is, if the
-- target has room for it, and refused otherwise. The one exception is the double
-- that is one past the greatest integer of 64 bits.

namespace EntitySql

-- Truth values are 1 and 0, doubles are integers if they are whole, and texts
-- are what they spell.
def Value.IsInteger : Value → Int → Prop
  | .int n, k => n.toInt = k
  | .bool b, k => (if b then 1 else 0) = k
  | .double x, k => (Binary64.ofFloat x).toRat? = some (k : ℚ)
  | .string t, k => Text.SpellsInteger t k
  | _, _ => False

-- The double that is one past the greatest integer of 64 bits.
def Value.IsPastWord : Value → Prop
  | .double x => (Value.double x).IsInteger 9223372036854775808
  | _ => False

-- The size of the integers of a type.
def FieldType.wordBits? : FieldType → Option Nat
  | .int32 => some 32
  | .int64 => some 64
  | _ => none

namespace Conversion

theorem whole?_iff_isInteger {x : Float} {k : Int} :
    (Binary64.ofFloat x).whole? = some k ↔ (Value.double x).IsInteger k :=
  Binary64.whole?_eq_some_iff

-- The upper limit of the check is a double, and no integer of 64 bits.
theorem integerOfDouble?_eq_some_iff {x : Float} {n : Int64} :
    integerOfDouble? x = some n ↔ (Value.double x).IsInteger n.toInt ∨
      ((Value.double x).IsPastWord ∧ n = Int64.minValue) := by
  simp only [Value.IsPastWord, ← whole?_iff_isInteger, integerOfDouble?]
  have hlimit : Text.wordLimit 64 = 9223372036854775808 := rfl
  have hnext : Int64.ofInt 9223372036854775808 = Int64.minValue := by decide
  cases (Binary64.ofFloat x).whole? with
  | none => simp
  | some k =>
    have hword := Text.inWord64_iff.mp (Text.inWord_toInt n)
    simp only [Option.bind_eq_bind, Option.bind_some, Bool.and_eq_true, decide_eq_true_eq, hlimit,
      Option.ite_none_right_eq_some, Option.some.injEq]
    constructor
    · rintro ⟨hrange, rfl⟩
      rcases Int.lt_or_eq_of_le hrange.2 with hlt | rfl
      · exact .inl (Text.toInt_ofInt_iff.mpr (Text.inWord64_iff.mpr ⟨hrange.1, hlt⟩)).symm
      · exact .inr ⟨rfl, hnext⟩
    · rintro (rfl | ⟨rfl, rfl⟩)
      · exact ⟨by omega, n.ofInt_toInt⟩
      · exact ⟨by omega, hnext⟩

theorem integerOfText?_eq_some_iff {t : Text} {n : Int64} :
    integerOfText? t = some n ↔ Text.SpellsInteger t n.toInt := by
  rw [integerOfText?, Text.toIntWithin?, Option.map_eq_some_iff, ← Text.toInt?_eq_some_iff]
  constructor
  · rintro ⟨k, hk, rfl⟩
    obtain ⟨hread, hword⟩ := Option.filter_eq_some_iff.mp hk
    rwa [Text.toInt_ofInt_iff.mpr hword]
  · intro h
    exact ⟨n.toInt, Option.filter_eq_some_iff.mpr ⟨h, Text.inWord_toInt n⟩, n.ofInt_toInt⟩

theorem integer?_eq_some_iff {v : Value} {n : Int64} :
    integer? v = some n ↔ v.IsInteger n.toInt ∨ (v.IsPastWord ∧ n = Int64.minValue) := by
  cases v with
  | double x => exact integerOfDouble?_eq_some_iff
  | string t =>
    rw [integer?, integerOfText?_eq_some_iff]
    simp [Value.IsPastWord, Value.IsInteger]
  | int m => simp [integer?, Value.IsInteger, Value.IsPastWord, Int64.toInt_inj]
  | bool b =>
    cases b with
    | false => simp [integer?, Value.IsInteger, Value.IsPastWord, ← Int64.toInt_inj]
    | true => simp [integer?, Value.IsInteger, Value.IsPastWord, ← Int64.toInt_inj]
  | _ => simp [integer?, Value.IsInteger, Value.IsPastWord]

theorem fromDatabase_eq_toInteger {raw : Value} (hraw : raw.isNull = false) {target : FieldType}
    {bits : Nat} (htarget : target.wordBits? = some bits) (element : FieldType) :
    fromDatabase target element raw = toInteger raw target := by
  cases target <;> first | cases htarget; done | skip
  all_goals
    cases raw with
    | null => cases hraw
    | _ => simp [fromDatabase, scalarFromDatabase]

theorem toInteger_eq_ok {raw v : Value} {target : FieldType} : toInteger raw target = .ok v ↔
    ∃ n, v = .int n ∧ integer? raw = some n ∧
      (target = .int32 → Text.inWord 32 n.toInt = true) := by
  rw [toInteger]
  cases integer? raw with
  | none => simp [notConvertible]
  | some m =>
    simp only [Option.some.injEq, notConvertible]
    by_cases hfits : target = .int32 ∧ ¬Text.inWord 32 m.toInt = true
    · simp [hfits]
    · rw [if_neg hfits, Except.ok.injEq]
      constructor
      · rintro rfl
        exact ⟨m, rfl, rfl, fun h => by_contra fun hword => hfits ⟨h, hword⟩⟩
      · rintro ⟨n, rfl, rfl, -⟩
        rfl

-- The double past the word becomes the least integer, which 32 bits do not hold.
theorem toInteger_eq_ok_iff {raw v : Value} {target : FieldType} {bits : Nat}
    (htarget : target.wordBits? = some bits) : toInteger raw target = .ok v ↔
      (∃ n, v = .int n ∧ raw.IsInteger n.toInt ∧ Text.inWord bits n.toInt = true) ∨
        (target = .int64 ∧ raw.IsPastWord ∧ v = .int Int64.minValue) := by
  have hleast : Text.inWord 32 Int64.minValue.toInt = false := by decide
  simp only [toInteger_eq_ok, integer?_eq_some_iff]
  cases target
  case int32 =>
    cases htarget
    constructor
    · rintro ⟨n, rfl, h | ⟨-, rfl⟩, hword⟩
      · exact .inl ⟨n, rfl, h, hword rfl⟩
      · rw [hleast] at hword
        cases hword rfl
    · rintro (⟨n, rfl, h, hword⟩ | ⟨h, -⟩)
      · exact ⟨n, rfl, .inl h, fun _ => hword⟩
      · cases h
  case int64 =>
    cases htarget
    constructor
    · rintro ⟨n, rfl, h | ⟨h, rfl⟩, -⟩
      · exact .inl ⟨n, rfl, h, Text.inWord_toInt n⟩
      · exact .inr ⟨rfl, h, rfl⟩
    · rintro (⟨n, rfl, h, -⟩ | ⟨-, h, rfl⟩)
      · exact ⟨n, rfl, .inl h, by simp⟩
      · exact ⟨Int64.minValue, rfl, .inr ⟨h, rfl⟩, by simp⟩
  all_goals cases htarget

-- The integer that comes out of a conversion is the one that went in, within the
-- range of the target, and all other values are refused. Only the double 2 ^ 63,
-- which the range check of 64 bits lets pass, becomes another number.
theorem fromDatabase_lossless {raw : Value} (hraw : raw.isNull = false) {target : FieldType}
    {bits : Nat} (htarget : target.wordBits? = some bits) (element : FieldType) :
    (∀ v, fromDatabase target element raw = .ok v ↔
      (∃ n, v = .int n ∧ raw.IsInteger n.toInt ∧ Text.inWord bits n.toInt = true) ∨
        (target = .int64 ∧ raw.IsPastWord ∧ v = .int Int64.minValue)) ∧
    ∀ e, fromDatabase target element raw = .error e →
      e = .conversion (.notConvertible raw target) := by
  rw [fromDatabase_eq_toInteger hraw htarget]
  refine ⟨fun v => toInteger_eq_ok_iff htarget, fun e h => ?_⟩
  rw [toInteger, notConvertible] at h
  split at h
  · exact (Except.error.inj h).symm
  · split at h
    · exact (Except.error.inj h).symm
    · cases h

-- The two doubles next to the limit, and the least integer as a text.
theorem fromDatabase_lossless_pastWord :
    fromDatabase .int64 .int64 (.double (Float.ofBits 0x43E0000000000000)) =
        .ok (.int Int64.minValue) ∧
      fromDatabase .int64 .int64 (.double (Float.ofBits 0x43DFFFFFFFFFFFFF)) =
        .ok (.int 9223372036854774784) ∧
      fromDatabase .int64 .int64 (.string " -9223372036854775808") = .ok (.int Int64.minValue) := by
  have hpast : (Value.double (Float.ofBits 0x43E0000000000000)).IsPastWord :=
    whole?_iff_isInteger.mp (by decide +kernel)
  have hbefore : (Value.double (Float.ofBits 0x43DFFFFFFFFFFFFF)).IsInteger 9223372036854774784 :=
    whole?_iff_isInteger.mp (by decide +kernel)
  have hleast : (Value.string " -9223372036854775808").IsInteger Int64.minValue.toInt :=
    Text.toInt?_eq_some_iff.mp (by decide +kernel)
  refine ⟨?_, ?_, ?_⟩
  · exact ((fromDatabase_lossless rfl rfl .int64).1 _).mpr (.inr ⟨rfl, hpast, rfl⟩)
  · exact ((fromDatabase_lossless rfl rfl .int64).1 _).mpr
      (.inl ⟨9223372036854774784, rfl, hbefore, by decide⟩)
  · exact ((fromDatabase_lossless rfl rfl .int64).1 _).mpr (.inl ⟨_, rfl, hleast, by decide⟩)

end Conversion

end EntitySql
