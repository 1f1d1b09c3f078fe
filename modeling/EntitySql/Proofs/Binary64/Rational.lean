import EntitySql.Binary64
import Mathlib.Algebra.Order.Field.Rat
import Mathlib.Tactic.FieldSimp
import Mathlib.Tactic.NormNum

-- The rational number that a finite double is, and the test for whole numbers.

namespace EntitySql.Binary64

-- Infinities and NaN are no numbers.
def toRat? : Binary64 → Option ℚ
  | .finite negative m e => some ((signed negative m : ℚ) * 2 ^ e)
  | _ => none

theorem signed_mul (negative : Bool) (m k : Nat) :
    signed negative (m * k) = signed negative m * k := by
  cases negative <;> simp [signed]

-- A sign changes nothing about divisibility.
theorem signed_eq_mul_iff {negative : Bool} {m k : Nat} (hk : 0 < k) {n : Int} :
    signed negative m = n * k ↔ m % k = 0 ∧ signed negative (m / k) = n := by
  have hpos : (k : Int) ≠ 0 := by omega
  constructor
  · intro h
    have hdvd : k ∣ m := by
      have hsigned : (k : Int) ∣ signed negative m := ⟨n, h.trans (mul_comm _ _)⟩
      cases negative
      · exact Int.natCast_dvd_natCast.mp hsigned
      · exact Int.natCast_dvd_natCast.mp (Int.dvd_neg.mp hsigned)
    obtain ⟨q, rfl⟩ := hdvd
    rw [mul_comm k q, signed_mul] at h
    rw [Nat.mul_mod_right, Nat.mul_div_cancel_left q hk]
    exact ⟨rfl, mul_right_cancel₀ hpos h⟩
  · rintro ⟨hmod, rfl⟩
    rw [← signed_mul, Nat.div_mul_cancel (Nat.dvd_of_mod_eq_zero hmod)]

theorem whole?_eq_some_iff {b : Binary64} {n : Int} :
    b.whole? = some n ↔ b.toRat? = some (n : ℚ) := by
  cases b with
  | nan => simp [whole?, toRat?]
  | infinite negative => simp [whole?, toRat?]
  | finite negative m e =>
    rw [whole?, toRat?]
    by_cases he : 0 ≤ e
    · obtain ⟨k, rfl⟩ := Int.eq_ofNat_of_zero_le he
      rw [if_pos he, Int.toNat_natCast, signed_mul, zpow_natCast, Option.some.injEq,
        Option.some.injEq, Nat.pow_eq]
      norm_cast
    · obtain ⟨k, hk⟩ := Int.eq_ofNat_of_zero_le (show 0 ≤ -e by omega)
      obtain rfl : e = -(k : Int) := by omega
      have hpower : 0 < Nat.pow 2 k := Nat.pow_pos (by decide)
      have hquotient : (signed negative m : ℚ) * 2 ^ (-(k : Int)) = n ↔
          signed negative m = n * (Nat.pow 2 k : Nat) := by
        rw [zpow_neg, zpow_natCast, ← div_eq_mul_inv, div_eq_iff (by positivity), Nat.pow_eq]
        norm_cast
      rw [if_neg he, neg_neg, Int.toNat_natCast, Option.some.injEq, hquotient,
        signed_eq_mul_iff hpower]
      split
      · next hmod => rw [Option.some.injEq, and_iff_right hmod]
      · next hmod => simp only [reduceCtorEq, hmod, false_and]

end EntitySql.Binary64
