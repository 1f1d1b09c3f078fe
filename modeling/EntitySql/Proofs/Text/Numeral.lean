import EntitySql.Text.Numeral

-- Decimal and hexadecimal numerals: written numbers consist of digits and read
-- back.

namespace EntitySql.Text

theorem isDigit_digit {n : Nat} (h : n < 10) : Byte.isDigit (Byte.digit n) = true := by
  have hall : ∀ k < 10, Byte.isDigit (Byte.digit k) = true := by decide
  exact hall n h

theorem digit_value {n : Nat} (h : n < 10) : (Byte.digit n).toNat - 0x30 = n := by
  have hall : ∀ k < 10, (Byte.digit k).toNat - 0x30 = k := by decide
  exact hall n h

theorem digitsValue_append_digit (digits : Text) {n : Nat} (h : n < 10) :
    digitsValue (digits ++ [Byte.digit n]) = digitsValue digits * 10 + n := by
  simp only [digitsValue, List.foldl_append, List.foldl_cons, List.foldl_nil, digit_value h]

-- The fuel is enough as soon as it exceeds the number.
theorem digitsValue_digitsWithin (fuel n : Nat) (h : n < fuel) :
    digitsValue (digitsWithin fuel n) = n := by
  induction fuel generalizing n with
  | zero => omega
  | succ fuel ih =>
    unfold digitsWithin
    by_cases hn : n < 10
    · rw [if_pos hn]
      simpa [digitsValue] using digit_value hn
    · rw [if_neg hn, digitsValue_append_digit _ (Nat.mod_lt n (by omega)), ih _ (by omega)]
      omega

theorem isDigit_of_mem_digitsWithin (fuel n : Nat) {c : UInt8} (h : c ∈ digitsWithin fuel n) :
    Byte.isDigit c = true := by
  induction fuel generalizing n with
  | zero => simp [digitsWithin] at h
  | succ fuel ih =>
    unfold digitsWithin at h
    by_cases hn : n < 10
    · rw [if_pos hn, List.mem_singleton] at h
      exact h ▸ isDigit_digit hn
    · rw [if_neg hn, List.mem_append, List.mem_singleton] at h
      rcases h with h | rfl
      · exact ih _ h
      · exact isDigit_digit (Nat.mod_lt n (by omega))

theorem digitsValue_ofNat (n : Nat) : digitsValue (ofNat n) = n :=
  digitsValue_digitsWithin _ _ (by omega)

theorem isDigit_of_mem_ofNat {n : Nat} {c : UInt8} (h : c ∈ ofNat n) : Byte.isDigit c = true :=
  isDigit_of_mem_digitsWithin _ _ h

theorem ofNat_ne_nil (n : Nat) : ofNat n ≠ [] := by
  unfold ofNat digitsWithin
  by_cases hn : n < 10 <;> simp [hn]

theorem ofNat_injective {m n : Nat} (h : ofNat m = ofNat n) : m = n := by
  rw [← digitsValue_ofNat m, h, digitsValue_ofNat]

theorem length_digitsWithin_le (fuel n width : Nat) (h : n < Nat.pow 10 (width + 1)) :
    (digitsWithin fuel n).length ≤ width + 1 := by
  induction fuel generalizing n width with
  | zero => simp [digitsWithin]
  | succ fuel ih =>
    unfold digitsWithin
    by_cases hn : n < 10
    · rw [if_pos hn, List.length_singleton]
      omega
    · cases width with
      | zero => exact absurd h hn
      | succ width =>
        have hshort := ih (n / 10) width (Nat.div_lt_of_lt_mul (Nat.mul_comm .. ▸ h))
        rw [if_neg hn, List.length_append, List.length_singleton]
        omega

theorem isDigit_of_mem_ofNatPadded {width n : Nat} {c : UInt8} (h : c ∈ ofNatPadded width n) :
    Byte.isDigit c = true := by
  rcases List.mem_append.mp h with hzero | hdigit
  · rw [(List.mem_replicate.mp hzero).2]
    rfl
  · exact isDigit_of_mem_ofNat hdigit

theorem isEmpty_ofNatPadded (width n : Nat) : (ofNatPadded width n).isEmpty = false :=
  List.isEmpty_eq_false_iff.mpr (List.append_ne_nil_of_right_ne_nil _ (ofNat_ne_nil n))

theorem digitsValue_ofNatPadded (width n : Nat) : digitsValue (ofNatPadded width n) = n := by
  have hzeros (count : Nat) : digitsValue (List.replicate count Byte.zero) = 0 := by
    induction count with
    | zero => rfl
    | succ count ih => exact ih
  have hstart : digitsValue (ofNatPadded width n) =
      (ofNat n).foldl (fun n c => n * 10 + (c.toNat - 0x30))
        (digitsValue (List.replicate (width - (ofNat n).length) Byte.zero)) :=
    List.foldl_append ..
  rw [hstart, hzeros]
  exact digitsValue_ofNat n

theorem length_ofNatPadded (width : Nat) {n : Nat} (h : n < Nat.pow 10 (width + 1)) :
    (ofNatPadded (width + 1) n).length = width + 1 := by
  have hlength := length_digitsWithin_le (n + 1) n width h
  rw [ofNatPadded, zeroFilled, List.length_append, List.length_replicate]
  exact Nat.sub_add_cancel hlength

-- A number of that many digits is taken off again, whatever stands behind it.
theorem takeDigits?_ofNatPadded (width : Nat) {n : Nat} (h : n < Nat.pow 10 (width + 1))
    (rest : Text) :
    takeDigits? (width + 1) (ofNatPadded (width + 1) n ++ rest) = some (n, rest) := by
  have hlength := length_ofNatPadded width h
  have hdigits : (ofNatPadded (width + 1) n).all Byte.isDigit = true :=
    List.all_eq_true.mpr fun c hc => isDigit_of_mem_ofNatPadded hc
  rw [takeDigits?, List.take_left' hlength, List.drop_left' hlength, hdigits, hlength,
    digitsValue_ofNatPadded]
  simp

-- A digit is no minus sign, so the sign of a number shows in its first byte.
theorem minus_not_mem_ofNat (n : Nat) : Byte.minus ∉ ofNat n := by
  intro h
  have hdigit := isDigit_of_mem_ofNat h
  exact absurd hdigit (by decide)

-- A digit is neither white space nor a sign.
theorem takeSign_of_digits {t : Text} (h : ∀ c ∈ t, Byte.isDigit c = true) :
    takeSign (t.dropWhile Byte.isSpace) = (false, t) := by
  cases t with
  | nil => rfl
  | cons d rest =>
    have hd := h d (List.mem_cons_self ..)
    have hdiffer : ∀ c : UInt8, Byte.isDigit c = false → d ≠ c := by
      rintro c hc rfl
      rw [hd] at hc
      cases hc
    have hspace : Byte.isSpace d = false := by
      rw [← Bool.not_eq_true]
      intro hspace
      simp only [Byte.isSpace, Byte.isDigit, Bool.or_eq_true, beq_iff_eq, Bool.and_eq_true,
        decide_eq_true_eq, UInt8.le_iff_toNat_le] at hspace hd
      rcases hspace with rfl | hspace
      · exact absurd hd (by decide)
      · have hbounds : Byte.zero.toNat ≤ Byte.carriageReturn.toNat := Nat.le_trans hd.1 hspace.2
        exact absurd hbounds (by decide)
    rw [List.dropWhile_cons_of_neg (by simp [hspace]), takeSign]
    · exact fun _ heq => hdiffer Byte.minus (by decide) (List.cons.inj heq).1
    · exact fun _ heq => hdiffer Byte.plus (by decide) (List.cons.inj heq).1

theorem toInt?_ofInt (n : Int) : toInt? (ofInt n) = some n := by
  have hdigits (m : Nat) : (ofNat m).all Byte.isDigit = true :=
    List.all_eq_true.mpr fun c hc => isDigit_of_mem_ofNat hc
  have hsome (m : Nat) : (ofNat m).isEmpty = false := List.isEmpty_eq_false_iff.mpr (ofNat_ne_nil m)
  cases n with
  | ofNat m =>
    rw [toInt?, ofInt, takeSign_of_digits fun c hc => isDigit_of_mem_ofNat hc]
    simp [hsome, hdigits, digitsValue_ofNat]
  | negSucc m =>
    have hsign : takeSign (Byte.minus :: ofNat (m + 1)) = (true, ofNat (m + 1)) := rfl
    rw [toInt?, ofInt, List.dropWhile_cons_of_neg (by decide), hsign]
    simp [hsome, hdigits, digitsValue_ofNat, Int.negSucc_eq]

theorem toIntWithin?_ofInt {bits : Nat} {n : Int} (h : inWord bits n = true) :
    toIntWithin? bits (ofInt n) = some n := by
  rw [toIntWithin?, toInt?_ofInt, Option.filter_some, if_pos h]

-- Hexadecimal numerals of up to four digits.

theorem hexValue?_digit {n : Nat} (h : n < 16) : Byte.hexValue? (Byte.digit n) = some n := by
  have hall : ∀ k < 16, Byte.hexValue? (Byte.digit k) = some k := by decide
  exact hall n h

theorem isHexDigit_digit {n : Nat} (h : n < 16) : Byte.isHexDigit (Byte.digit n) = true := by
  rw [Byte.isHexDigit, hexValue?_digit h]
  rfl

theorem hexDigitsValue_map_digit {values : List Nat} (h : ∀ v ∈ values, v < 16) :
    hexDigitsValue (values.map Byte.digit) = values.foldl (fun n v => n * 16 + v) 0 := by
  have hfold (start : Nat) : (values.map Byte.digit).foldl
      (fun n c => n * 16 + (Byte.hexValue? c).getD 0) start =
        values.foldl (fun n v => n * 16 + v) start := by
    induction values generalizing start with
    | nil => rfl
    | cons v values ih =>
      obtain ⟨hv, hvalues⟩ := List.forall_mem_cons.mp h
      rw [List.map_cons, List.foldl_cons, List.foldl_cons, hexValue?_digit hv, Option.getD_some,
        ih hvalues]
  exact hfold 0

-- The digits of a group, by their values.
theorem hexGroup_eq {n : Nat} (h : n < 0x10000) : ∃ values : List Nat,
    hexGroup n = values.map Byte.digit ∧ (values ≠ [] ∧ values.length ≤ 4) ∧
      (∀ v ∈ values, v < 16) ∧ values.foldl (fun n v => n * 16 + v) 0 = n := by
  unfold hexGroup
  split
  · next hn => exact ⟨[n], rfl, by simp, by simpa using hn, by simp⟩
  · split
    · refine ⟨[n / 16, n % 16], rfl, by simp, ?_, ?_⟩
      all_goals
        simp
        omega
    · split
      · refine ⟨[n / 256, n / 16 % 16, n % 16], rfl, by simp, ?_, ?_⟩
        all_goals
          simp
          omega
      · refine ⟨[n / 4096 % 16, n / 256 % 16, n / 16 % 16, n % 16], rfl, by simp, ?_, ?_⟩
        all_goals
          simp
          omega

end EntitySql.Text
