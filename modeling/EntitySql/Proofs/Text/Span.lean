import EntitySql.Text
import Mathlib.Data.List.DropRight

-- Texts cut by a property of their bytes: where it ends for the first time,
-- and at both ends.

namespace EntitySql.Text

variable {p : UInt8 → Bool} {s rest : Text}

theorem takeWhile_append_of_stop (hs : ∀ c ∈ s, p c = true)
    (hrest : ∀ c ∈ rest.head?, p c = false) :
    (s ++ rest).takeWhile p = s := by
  rw [List.takeWhile_append_of_pos hs]
  cases rest with
  | nil => simp
  | cons c rest => simp [hrest c rfl]

theorem dropWhile_append_of_stop (hs : ∀ c ∈ s, p c = true)
    (hrest : ∀ c ∈ rest.head?, p c = false) :
    (s ++ rest).dropWhile p = rest := by
  rw [List.dropWhile_append_of_pos hs]
  cases rest with
  | nil => rfl
  | cons c rest => simp [hrest c rfl]

variable {drop : UInt8 → Bool} {t : Text}

theorem trimBy_eq_rdropWhile (drop : UInt8 → Bool) (t : Text) :
    trimBy drop t = (t.dropWhile drop).rdropWhile drop := rfl

-- Nothing is trimmed off a text that neither begins nor ends with it.
theorem trimBy_eq_self (hfirst : ∀ c ∈ t.head?, drop c = false)
    (hlast : ∀ c ∈ t.reverse.head?, drop c = false) : trimBy drop t = t := by
  have hfront : t.dropWhile drop = t := by
    cases t with
    | nil => rfl
    | cons c rest => exact List.dropWhile_cons_of_neg (by simp [hfirst c rfl])
  have hback : t.reverse.dropWhile drop = t.reverse := by
    cases hreverse : t.reverse with
    | nil => rfl
    | cons c rest =>
      rw [hreverse] at hlast
      exact List.dropWhile_cons_of_neg (by simp [hlast c rfl])
  rw [trimBy, hfront, hback, List.reverse_reverse]

theorem mem_of_mem_trimBy {c : UInt8} (h : c ∈ trimBy drop t) : c ∈ t :=
  (List.dropWhile_sublist drop).subset ((List.rdropWhile_prefix drop _).subset h)

-- What is trimmed off at the end leaves the beginning as it is.
theorem trimBy_trimBy (drop : UInt8 → Bool) (t : Text) : trimBy drop (trimBy drop t) = trimBy drop t := by
  have hfront : (trimBy drop t).dropWhile drop = trimBy drop t := by
    rw [List.dropWhile_eq_self_iff]
    intro hlength
    obtain ⟨more, hmore⟩ := List.rdropWhile_prefix drop (t.dropWhile drop)
    rw [← trimBy_eq_rdropWhile] at hmore
    have hall : 0 < (t.dropWhile drop).length := by
      rw [← hmore, List.length_append]
      omega
    have hfirst := List.dropWhile_get_zero_not drop t hall
    simp only [← hmore, List.get_eq_getElem, List.getElem_append_left hlength] at hfirst
    exact hfirst
  rw [trimBy_eq_rdropWhile drop (trimBy drop t), hfront, trimBy_eq_rdropWhile, List.rdropWhile_idempotent]

theorem trimBy_ne_nil {c : UInt8} (hc : c ∈ t) (hkept : drop c = false) : trimBy drop t ≠ [] := by
  intro h
  rw [trimBy_eq_rdropWhile, List.rdropWhile_eq_nil_iff] at h
  have hnone : t.dropWhile drop = [] := by
    rw [← List.length_eq_zero_iff]
    by_contra hlength
    have hpos : 0 < (t.dropWhile drop).length := Nat.pos_of_ne_zero hlength
    exact List.dropWhile_get_zero_not drop t hpos (h _ (List.get_mem _ _))
  have hall := List.dropWhile_eq_nil_iff.mp hnone c hc
  rw [hkept] at hall
  cases hall

end EntitySql.Text
