import EntitySql.Proofs.Text.Numeral
import Mathlib.Data.Nat.Digits.Defs

-- Integers of a word, and the decimal texts of integers. The reader accepts
-- white space, a sign or none, and at least one digit, and what it returns is
-- the number that the digits stand for by their places.

namespace EntitySql.Text

theorem inWord_iff {bits : Nat} {n : Int} :
    inWord bits n = true ↔ -(wordLimit bits : Int) ≤ n ∧ n < wordLimit bits := by
  simp [inWord]

theorem inWord64_iff {n : Int} :
    inWord 64 n = true ↔ -9223372036854775808 ≤ n ∧ n < 9223372036854775808 :=
  inWord_iff

theorem inWord32_iff {n : Int} : inWord 32 n = true ↔ -2147483648 ≤ n ∧ n < 2147483648 :=
  inWord_iff

theorem inWord_toInt (n : Int64) : inWord 64 n.toInt = true :=
  inWord64_iff.mpr ⟨n.le_toInt, n.toInt_lt⟩

-- An integer of 64 bits that is made of a number is that number exactly if
-- the word has room for it.
theorem toInt_ofInt_iff {n : Int} : (Int64.ofInt n).toInt = n ↔ inWord 64 n = true := by
  constructor
  · intro h
    rw [← h]
    exact inWord_toInt _
  · intro h
    obtain ⟨hlow, hhigh⟩ := inWord64_iff.mp h
    exact Int64.toInt_ofInt_of_le hlow hhigh

theorem toInt32_ofInt_iff {n : Int} : (Int32.ofInt n).toInt = n ↔ inWord 32 n = true := by
  constructor
  · intro h
    rw [← h]
    exact inWord32_iff.mpr ⟨Int32.le_toInt _, Int32.toInt_lt _⟩
  · intro h
    obtain ⟨hlow, hhigh⟩ := inWord32_iff.mp h
    exact Int32.toInt_ofInt_of_le hlow hhigh

structure IsDecimal (digits : Text) : Prop where
  ne_nil : digits ≠ []
  isDigit : ∀ c ∈ digits, Byte.isDigit c = true

def decimalValue (digits : Text) : Nat :=
  Nat.ofDigits 10 (digits.reverse.map fun c => c.toNat - 0x30)

inductive SpellsInteger : Text → Int → Prop
  | unsigned {blanks digits : Text} (hblanks : ∀ c ∈ blanks, Byte.isSpace c = true)
    (hdigits : IsDecimal digits) : SpellsInteger (blanks ++ digits) (decimalValue digits)
  | positive {blanks digits : Text} (hblanks : ∀ c ∈ blanks, Byte.isSpace c = true)
    (hdigits : IsDecimal digits) :
    SpellsInteger (blanks ++ Byte.plus :: digits) (decimalValue digits)
  | negative {blanks digits : Text} (hblanks : ∀ c ∈ blanks, Byte.isSpace c = true)
    (hdigits : IsDecimal digits) :
    SpellsInteger (blanks ++ Byte.minus :: digits) (-decimalValue digits)

theorem digitsValue_eq_decimalValue (digits : Text) : digitsValue digits = decimalValue digits := by
  have hfold (start : Nat) : digits.foldl (fun n c => n * 10 + (c.toNat - 0x30)) start =
      start * 10 ^ digits.length + decimalValue digits := by
    induction digits generalizing start with
    | nil => simp [decimalValue]
    | cons c rest ih =>
      rw [List.foldl_cons, ih, decimalValue, decimalValue, List.reverse_cons, List.map_append,
        Nat.ofDigits_append, List.length_map, List.length_reverse, List.length_cons, pow_succ]
      simp only [List.map_cons, List.map_nil, Nat.ofDigits_singleton]
      ring
  simpa [digitsValue] using hfold 0

theorem isDecimal_iff {digits : Text} :
    IsDecimal digits ↔ (digits.isEmpty || !digits.all Byte.isDigit) = false := by
  rw [Bool.or_eq_false_iff, List.isEmpty_eq_false_iff, Bool.not_eq_false', List.all_eq_true]
  exact ⟨fun h => ⟨h.ne_nil, h.isDigit⟩, fun h => ⟨h.1, h.2⟩⟩

theorem takeSign_cases (t : Text) :
    (∃ rest, t = Byte.minus :: rest ∧ takeSign t = (true, rest)) ∨
      (∃ rest, t = Byte.plus :: rest ∧ takeSign t = (false, rest)) ∨ takeSign t = (false, t) := by
  unfold takeSign
  split
  · next rest => exact .inl ⟨rest, rfl, rfl⟩
  · next rest => exact .inr (.inl ⟨rest, rfl, rfl⟩)
  · exact .inr (.inr rfl)

theorem toInt?_of_takeSign {t digits : Text} {negative : Bool} {n : Int}
    (h : takeSign (t.dropWhile Byte.isSpace) = (negative, digits)) :
    toInt? t = some n ↔
      IsDecimal digits ∧ (if negative then -(decimalValue digits : Int) else decimalValue digits) = n := by
  rw [toInt?, h, isDecimal_iff]
  dsimp only
  cases digits.isEmpty || !digits.all Byte.isDigit with
  | true => simp
  | false => simp [digitsValue_eq_decimalValue]

theorem toInt?_eq_some_iff {t : Text} {n : Int} : toInt? t = some n ↔ SpellsInteger t n := by
  constructor
  · intro h
    have hblanks : ∀ c ∈ t.takeWhile Byte.isSpace, Byte.isSpace c = true :=
      List.all_eq_true.mp List.all_takeWhile
    rw [← List.takeWhile_append_dropWhile (p := Byte.isSpace) (l := t)]
    rcases takeSign_cases (t.dropWhile Byte.isSpace) with
      ⟨rest, hrest, hsign⟩ | ⟨rest, hrest, hsign⟩ | hsign
    · obtain ⟨hdigits, rfl⟩ := (toInt?_of_takeSign hsign).mp h
      exact hrest ▸ .negative hblanks hdigits
    · obtain ⟨hdigits, rfl⟩ := (toInt?_of_takeSign hsign).mp h
      exact hrest ▸ .positive hblanks hdigits
    · obtain ⟨hdigits, rfl⟩ := (toInt?_of_takeSign hsign).mp h
      exact .unsigned hblanks hdigits
  · intro h
    cases h with
    | @unsigned blanks digits hblanks hdigits =>
      have hsign : takeSign ((blanks ++ digits).dropWhile Byte.isSpace) = (false, digits) := by
        rw [List.dropWhile_append_of_pos hblanks]
        exact takeSign_of_digits hdigits.isDigit
      exact (toInt?_of_takeSign hsign).mpr ⟨hdigits, rfl⟩
    | @positive blanks digits hblanks hdigits =>
      have hsign : takeSign ((blanks ++ Byte.plus :: digits).dropWhile Byte.isSpace) =
          (false, digits) := by
        rw [List.dropWhile_append_of_pos hblanks]
        rfl
      exact (toInt?_of_takeSign hsign).mpr ⟨hdigits, rfl⟩
    | @negative blanks digits hblanks hdigits =>
      have hsign : takeSign ((blanks ++ Byte.minus :: digits).dropWhile Byte.isSpace) =
          (true, digits) := by
        rw [List.dropWhile_append_of_pos hblanks]
        rfl
      exact (toInt?_of_takeSign hsign).mpr ⟨hdigits, rfl⟩

end EntitySql.Text
