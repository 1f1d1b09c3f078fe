import EntitySql.Binary64.Decimal
import EntitySql.Proofs.Text.Numeral

-- The bytes of decimal texts: digits, points, signs and the letter of the
-- exponent.

namespace EntitySql.Binary64

def isNumeral (c : UInt8) : Bool :=
  Byte.isDigit c || c == Byte.dot || c == Byte.minus || c == Byte.plus || c == 0x65

def Numeral (t : Text) : Prop := ∀ c ∈ t, isNumeral c = true

instance (t : Text) : Decidable (Numeral t) :=
  inferInstanceAs (Decidable (∀ c ∈ t, isNumeral c = true))

namespace Numeral

theorem nil : Numeral [] := by simp [Numeral]

theorem append_iff {s t : Text} : Numeral (s ++ t) ↔ Numeral s ∧ Numeral t := by
  simp only [Numeral, List.mem_append, or_imp, forall_and]

theorem append {s t : Text} (hs : Numeral s) (ht : Numeral t) : Numeral (s ++ t) :=
  append_iff.mpr ⟨hs, ht⟩

theorem cons {c : UInt8} {t : Text} (hc : isNumeral c = true) (ht : Numeral t) :
    Numeral (c :: t) := by
  simpa [Numeral, hc] using ht

theorem of_subset {s t : Text} (ht : Numeral t) (h : s ⊆ t) : Numeral s :=
  fun c hc => ht c (h hc)

theorem ofNat (n : Nat) : Numeral (Text.ofNat n) := by
  intro c hc
  simp [isNumeral, Text.isDigit_of_mem_ofNat hc]

theorem replicate_zero (n : Nat) : Numeral (List.replicate n Byte.zero) := by
  intro c hc
  rw [(List.mem_replicate.mp hc).2]
  rfl

theorem ofNatPadded (width n : Nat) : Numeral (Text.ofNatPadded width n) :=
  (replicate_zero _).append (ofNat n)

theorem ofInt (n : Int) : Numeral (Text.ofInt n) := by
  cases n with
  | ofNat n => exact ofNat n
  | negSucc n => exact cons rfl (ofNat (n + 1))

theorem signText (negative : Bool) : Numeral (signText negative) := by
  cases negative
  · exact nil
  · exact cons rfl nil

theorem exponentText (e : Int) : Numeral (exponentText e) := by
  have hsign : Numeral (if e < 0 then [Byte.minus] else [Byte.plus]) := by
    split
    · exact cons rfl nil
    · exact cons rfl nil
  have hletter : Numeral ("e" : Text) := by decide +kernel
  exact (hletter.append hsign).append (ofNatPadded 2 e.natAbs)

theorem pointed {digits : Text} (h : Numeral digits) : Numeral (pointed digits) := by
  unfold Binary64.pointed
  split
  · exact nil
  · exact h
  · next c rest _ =>
    exact cons (h c (by simp)) (cons rfl (h.of_subset (by simp)))

theorem positional {digits : Text} (h : Numeral digits) (point : Int) :
    Numeral (positional digits point) := by
  unfold Binary64.positional
  have hlead : Numeral ("0." : Text) := by decide +kernel
  split
  · exact (hlead.append (replicate_zero _)).append h
  · split
    · exact (h.of_subset (List.take_subset _ _)).append
        (cons rfl (h.of_subset (List.drop_subset _ _)))
    · exact h.append (replicate_zero _)

theorem dropTrailingZeros {digits : Text} (h : Numeral digits) :
    Numeral (dropTrailingZeros digits) := by
  intro c hc
  have hmem := (List.dropWhile_sublist _).subset (List.mem_reverse.mp hc)
  exact h c (List.mem_reverse.mp hmem)

theorem ofScaled (count q : Nat) (k : Int) : Numeral (Significand.ofScaled count q k).digits := by
  unfold Significand.ofScaled
  split
  · exact ofNat _
  · exact ofNat _

theorem significand (count n d : Nat) : Numeral (Binary64.significand count n d).digits :=
  ofScaled count _ _

end Numeral

end EntitySql.Binary64
