import EntitySql.Binary64

-- Equality of doubles is symmetric and transitive. Only a NaN, which differs
-- from itself, keeps it from being an equivalence.

namespace EntitySql.Binary64

open Float.Model (UnpackedFloat)

-- The unpacked numbers that compare as equal: those that are the same, and
-- the two zeros.
def Alike : UnpackedFloat → UnpackedFloat → Prop
  | .infinity s, .infinity t => s = t
  | .zero _, .zero _ => True
  | .finite s m e _, .finite t n f _ => s = t ∧ m = n ∧ e = f
  | _, _ => False

theorem alike_of_compare {x y : UnpackedFloat} (h : x.compare y = some .eq) : Alike x y := by
  cases x with
  | notANumber => cases h
  | infinity s =>
    cases y with
    | notANumber => cases h
    | infinity t => cases s <;> cases t <;> first | rfl | exact absurd h (by decide)
    | zero t => cases s <;> cases h
    | finite t n f _ => cases s <;> cases h
  | zero s =>
    cases y with
    | notANumber => cases h
    | infinity t => cases t <;> cases h
    | zero t => trivial
    | finite t n f _ => cases t <;> cases h
  | finite s m e _ =>
    cases y with
    | notANumber => cases h
    | infinity t => cases t <;> cases h
    | zero t => cases s <;> cases h
    | finite t n f _ =>
      have heq : s = t ∧ (compare e f).then (compare m n) = .eq := by
        cases s <;> cases t
        · exact ⟨rfl, Ordering.swap_inj.mp (Option.some.inj h)⟩
        · cases h
        · cases h
        · exact ⟨rfl, Option.some.inj h⟩
      obtain ⟨hexponent, hmantissa⟩ := Ordering.then_eq_eq.mp heq.2
      exact ⟨heq.1, by simpa using hmantissa, by simpa using hexponent⟩

theorem compare_of_alike {x y : UnpackedFloat} (h : Alike x y) : x.compare y = some .eq := by
  cases x <;> cases y <;> try exact False.elim h
  case infinity.infinity s t =>
    obtain rfl : s = t := h
    cases s <;> rfl
  case zero.zero => rfl
  case finite.finite s m e _ t n f _ =>
    obtain ⟨rfl, rfl, rfl⟩ := h
    have hself : (compare e e).then (compare m m) = .eq := by simp
    cases s
    · exact congrArg (fun o => some (Ordering.swap o)) hself
    · exact congrArg some hself

theorem compare_eq_iff (x y : UnpackedFloat) : x.compare y = some .eq ↔ Alike x y :=
  ⟨alike_of_compare, compare_of_alike⟩

theorem beq_iff_alike (x y : Float) :
    (x == y) = true ↔ Alike x.toModel.unpack y.toModel.unpack := by
  rw [← compare_eq_iff]
  exact @beq_iff_eq (Option Ordering) _ _ _ _

theorem Alike.symm {x y : UnpackedFloat} (h : Alike x y) : Alike y x := by
  cases x <;> cases y
  case infinity.infinity => exact Eq.symm h
  case zero.zero => trivial
  case finite.finite =>
    obtain ⟨rfl, rfl, rfl⟩ := h
    exact ⟨rfl, rfl, rfl⟩
  all_goals exact False.elim h

theorem Alike.trans {x y z : UnpackedFloat} (h : Alike x y) (h' : Alike y z) : Alike x z := by
  cases x <;> cases y <;> try exact False.elim h
  all_goals cases z <;> try exact False.elim h'
  case infinity.infinity.infinity => exact Eq.trans h h'
  case zero.zero.zero => trivial
  case finite.finite.finite =>
    obtain ⟨rfl, rfl, rfl⟩ := h
    exact h'

theorem beq_symm {x y : Float} (h : (x == y) = true) : (y == x) = true := by
  rw [beq_iff_alike] at h ⊢
  exact h.symm

theorem beq_trans {x y z : Float} (h : (x == y) = true) (h' : (y == z) = true) :
    (x == z) = true := by
  rw [beq_iff_alike] at h h' ⊢
  exact h.trans h'

theorem alike_self (x : UnpackedFloat) : Alike x x ↔ x.isNaN = false := by
  cases x with
  | notANumber => exact iff_of_false id nofun
  | infinity s => exact iff_of_true rfl rfl
  | zero s => exact iff_of_true trivial rfl
  | finite s m e h => exact iff_of_true ⟨rfl, rfl, rfl⟩ rfl

theorem beq_self (x : Float) : (x == x) = !x.isNaN := by
  have hnan : x.isNaN = x.toModel.unpack.isNaN := rfl
  rw [Bool.eq_iff_iff, beq_iff_alike, alike_self, hnan, Bool.not_eq_true']

end EntitySql.Binary64
