import EntitySql.Proofs.Value.Order
import Mathlib.Order.Defs.Unbundled

-- The order of values is a strict weak order: values that come neither before
-- nor after one another fall into classes. Timestamps of one instant are such a
-- class, and so are arrays that differ in them alone.

namespace EntitySql

instance : Std.TransCmp Inet.order :=
  inferInstanceAs <| Std.TransCmp
    (compareLex (compareLex (compareOn Inet.isV6) (compareOn Inet.bytes)) (compareOn Inet.maskLength))

namespace Value

theorem kind_eq_of_rank_eq {j k : Kind} (h : j.rank = k.rank) : j = k := by
  revert h
  cases j <;> cases k <;> decide

-- A value that does not come after another is not of a later kind.
theorem rank_le_of_isLE {a b : Value} (h : (order a b).isLE = true) :
    a.kind.rank ≤ b.kind.rank := by
  by_cases hkind : a.kind = b.kind
  · exact Nat.le_of_eq (congrArg Kind.rank hkind)
  · rw [order_of_kind_ne hkind, Nat.isLE_compare] at h
    exact h

theorem order_eq_of_isLE {a b : Value} (ha : a.isExact = true) (hb : b.isExact = true)
    (h : (order a b).isLE = true) (h' : (order b a).isLE = true) : order a b = .eq := by
  rw [order_swap ha hb] at h'
  cases hab : order a b with
  | eq => rfl
  | lt => simp [hab] at h'
  | gt => simp [hab] at h

mutual

theorem order_isLE_trans {a b c : Value} (ha : a.isExact = true) (hb : b.isExact = true)
    (hc : c.isExact = true) (hab : (order a b).isLE = true) (hbc : (order b c).isLE = true) :
    (order a c).isLE = true := by
  have hrank : a.kind.rank ≤ c.kind.rank :=
    Nat.le_trans (rank_le_of_isLE hab) (rank_le_of_isLE hbc)
  by_cases hkind : a.kind = c.kind
  · have hkind' : a.kind = b.kind := by
      have hback : b.kind.rank ≤ a.kind.rank := hkind ▸ rank_le_of_isLE hbc
      exact kind_eq_of_rank_eq (Nat.le_antisymm (rank_le_of_isLE hab) hback)
    match a, b, c with
    | .null, .null, .null => rfl
    | .bool a, .bool b, .bool c =>
      rw [order_bool] at hab hbc ⊢
      exact Std.TransCmp.isLE_trans hab hbc
    | .int a, .int b, .int c =>
      rw [order_int] at hab hbc ⊢
      exact Std.TransCmp.isLE_trans hab hbc
    | .string a, .string b, .string c =>
      rw [order_string] at hab hbc ⊢
      exact Std.TransCmp.isLE_trans hab hbc
    | .uuid a, .uuid b, .uuid c =>
      rw [order_uuid] at hab hbc ⊢
      exact Std.TransCmp.isLE_trans hab hbc
    | .timestamp a, .timestamp b, .timestamp c =>
      rw [order_timestamp] at hab hbc ⊢
      exact Std.TransCmp.isLE_trans hab hbc
    | .bytes a, .bytes b, .bytes c =>
      rw [order_bytes] at hab hbc ⊢
      exact Std.TransCmp.isLE_trans hab hbc
    | .array as, .array bs, .array cs =>
      rw [order] at hab hbc ⊢
      exact orderItems_isLE_trans ha hb hc hab hbc
    | .inet a, .inet b, .inet c =>
      rw [order_inet] at hab hbc ⊢
      exact Std.TransCmp.isLE_trans hab hbc
  · rw [order_of_kind_ne hkind, Nat.isLE_compare]
    exact hrank
termination_by sizeOf a + sizeOf b + sizeOf c

theorem orderItems_isLE_trans {as bs cs : List Value} (has : areExact as = true)
    (hbs : areExact bs = true) (hcs : areExact cs = true) (hab : (orderItems as bs).isLE = true)
    (hbc : (orderItems bs cs).isLE = true) : (orderItems as cs).isLE = true := by
  match as, bs, cs with
  | [], _, [] => rfl
  | [], _, _ :: _ => rfl
  | a :: as, b :: bs, c :: cs =>
    rw [areExact, Bool.and_eq_true] at has hbs hcs
    rw [orderItems, Ordering.isLE_then_iff_or] at hab hbc ⊢
    have hle : (order a b).isLE = true := by rcases hab with h | h <;> simp [h]
    have hle' : (order b c).isLE = true := by rcases hbc with h | h <;> simp [h]
    have hac := order_isLE_trans has.1 hbs.1 hcs.1 hle hle'
    rcases Ordering.isLE_iff_eq_lt_or_eq_eq.mp hac with hlt | heq
    · exact .inl hlt
    · -- The first items come back to where they started, so that none of them comes
      -- before another.
      have hback : (order c a).isLE = true := by simp [order_swap has.1 hcs.1, heq]
      have hfirst := order_eq_of_isLE has.1 hbs.1 hle (order_isLE_trans hbs.1 hcs.1 has.1 hle' hback)
      have hsecond :=
        order_eq_of_isLE hbs.1 hcs.1 hle' (order_isLE_trans hcs.1 has.1 hbs.1 hback hle)
      have hrest : (orderItems as bs).isLE = true := by simpa [hfirst] using hab
      have hrest' : (orderItems bs cs).isLE = true := by simpa [hsecond] using hbc
      exact .inr ⟨heq, orderItems_isLE_trans has.2 hbs.2 hcs.2 hrest hrest'⟩
termination_by sizeOf as + sizeOf bs + sizeOf cs

end

abbrev Exact := {v : Value // v.isExact = true}

def Exact.compare (a b : Exact) : Ordering := order a.1 b.1

instance : Std.TransCmp Exact.compare where
  eq_swap {a b} := order_swap b.2 a.2
  isLE_trans {a b c} := order_isLE_trans a.2 b.2 c.2

theorem less_iff {a b : Value} : a.less b = true ↔ order a b = .lt := by
  rw [less, beq_iff_eq]

theorem order_eq_iff_incomparable {a b : Value} (ha : a.isExact = true) (hb : b.isExact = true) :
    order a b = .eq ↔ ¬a.less b = true ∧ ¬b.less a = true := by
  rw [less_iff, less_iff, order_swap ha hb]
  cases order a b <;> decide

-- No value without doubles and documents comes before itself, a value before
-- another comes before all behind it, and values that come neither before nor after
-- a third come neither before nor after each other.
theorem less_strictWeakOrder :
    IsStrictWeakOrder Exact fun a b => a.1.less b.1 = true where
  irrefl a := by
    rw [less_iff, (order_eq_iff a.2 a.2).mpr rfl]
    decide
  trans a b c hab hbc := by
    rw [less_iff] at hab hbc ⊢
    have hac : Exact.compare a c = .lt := Std.TransCmp.lt_trans (b := b) hab hbc
    exact hac
  incomp_trans a b c hab hbc := by
    rw [← order_eq_iff_incomparable a.2 b.2] at hab
    rw [← order_eq_iff_incomparable b.2 c.2] at hbc
    rw [← order_eq_iff_incomparable a.2 c.2]
    have hac : Exact.compare a c = .eq := Std.TransCmp.eq_trans (b := b) hab hbc
    exact hac

-- An instant in two zones and without any: incomparable, but not all equal.
example :
    let zoned := Value.timestamp ⟨3600000000, true, 60⟩
    let utc := Value.timestamp ⟨0, true, 0⟩
    let unzoned := Value.timestamp ⟨0, false, 0⟩
    order zoned utc = .eq ∧ order utc unzoned = .eq ∧ zoned.same utc = true ∧
      utc.same unzoned = false := by decide

end Value

end EntitySql
