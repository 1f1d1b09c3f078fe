import EntitySql.Text

-- The order of texts is that of lists of bytes.

namespace EntitySql.Text

theorem order_eq_compare (a b : Text) : order a b = compare a b := by
  induction a generalizing b with
  | nil => cases b <;> rfl
  | cons x a ih =>
    cases b with
    | nil => rfl
    | cons y b =>
      rw [order, List.compare_cons_cons, ih]
      cases hbytes : compare x y with
      | lt =>
        rw [if_pos (Std.compare_eq_lt.mp hbytes)]
        rfl
      | eq =>
        obtain rfl := Std.LawfulEqCmp.compare_eq_iff_eq.mp hbytes
        rw [if_neg (UInt8.lt_irrefl x), if_neg (UInt8.lt_irrefl x)]
        rfl
      | gt =>
        have hlt := Std.compare_eq_gt.mp hbytes
        rw [if_neg (UInt8.lt_asymm hlt), if_pos hlt]
        rfl

theorem less_eq_isLT (a b : Text) : less a b = (compare a b).isLT := by
  rw [less, order_eq_compare]
  cases compare a b <;> rfl

theorem order_trans {a b c : Text} (h : order a b = .lt) (h' : order b c = .lt) : order a c = .lt := by
  rw [order_eq_compare] at h h' ⊢
  exact Std.TransCmp.lt_trans h h'

theorem order_gt_iff {a b : Text} : order a b = .gt ↔ order b a = .lt := by
  rw [order_eq_compare, order_eq_compare]
  exact Std.OrientedCmp.gt_iff_lt

theorem eq_of_order {a b : Text} (h : order a b = .eq) : a = b := by
  rw [order_eq_compare] at h
  exact Std.LawfulEqCmp.eq_of_compare h

end EntitySql.Text
