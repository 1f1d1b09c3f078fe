import EntitySql.Query.Plan
import Mathlib.Data.List.Chain

-- Chains of set operations as trees. By the grammar of SQL, INTERSECT binds
-- tighter than the other operators, and operators of equal rank associate to the
-- left.

namespace EntitySql.Query

inductive Combination (α : Type) where
  | operand (a : α)
  | combine (operator : SetOperator) (left right : Combination α)
  deriving DecidableEq

namespace Combination

variable {α : Type} {t l p : Combination α} {op : SetOperator} {a b : α}
variable {rest : List (SetOperator × α)}

-- A product on the right of what has been read before it.
def close : Option (Combination α × SetOperator) → Combination α → Combination α
  | none, p => p
  | some (l, op), p => .combine op l p

-- The chain behind a product: INTERSECT goes on with the product, any other
-- operator closes it.
def nestBehind (sum : Option (Combination α × SetOperator)) (p : Combination α) :
    List (SetOperator × α) → Combination α
  | [] => close sum p
  | (.intersect, b) :: rest => nestBehind sum (.combine .intersect p (.operand b)) rest
  | (op, b) :: rest => nestBehind (some (close sum p, op)) (.operand b) rest

def nest (a : α) (rest : List (SetOperator × α)) : Combination α :=
  nestBehind none (.operand a) rest

theorem nestBehind_cons {sum : Option (Combination α × SetOperator)} (hop : op ≠ .intersect) :
    nestBehind sum p ((op, b) :: rest) =
      nestBehind (some (close sum p, op)) (.operand b) rest := by
  cases op with
  | intersect => exact absurd rfl hop
  | _ => rfl

-- Every operator applied to all that stands before it.

def apply (t : Combination α) (r : SetOperator × α) : Combination α :=
  .combine r.1 t (.operand r.2)

def leftNested (a : α) (rest : List (SetOperator × α)) : Combination α :=
  rest.foldl apply (.operand a)

inductive IsLeft : Combination α → Prop where
  | operand (a : α) : IsLeft (.operand a)
  | combine {op : SetOperator} {t : Combination α} (a : α) (h : IsLeft t) :
      IsLeft (.combine op t (.operand a))

theorem isLeft_foldl (h : t.IsLeft) : (rest.foldl apply t).IsLeft := by
  induction rest generalizing t with
  | nil => exact h
  | cons r rest ih => exact ih (.combine r.2 h)

-- No INTERSECT stands behind another operator.
def IntersectsFirst (operators : List SetOperator) : Prop :=
  operators.IsChain fun before after => after = .intersect → before = .intersect

instance (operators : List SetOperator) : Decidable (IntersectsFirst operators) :=
  inferInstanceAs (Decidable (List.IsChain _ _))

theorem intersectsFirst_cons {operators : List SetOperator} (hop : op ≠ .intersect) :
    IntersectsFirst (op :: operators) ↔ .intersect ∉ operators := by
  induction operators generalizing op with
  | nil => simp [IntersectsFirst]
  | cons following operators ih =>
    by_cases hfollowing : following = .intersect
    · simp [IntersectsFirst, hfollowing, hop]
    · have hne : SetOperator.intersect ≠ following := Ne.symm hfollowing
      rw [IntersectsFirst, List.isChain_cons_cons, ← IntersectsFirst, ih hfollowing]
      simp [hfollowing, hne]

theorem intersectsFirst_intersect_cons {operators : List SetOperator} :
    IntersectsFirst (.intersect :: operators) ↔ IntersectsFirst operators := by
  simp [IntersectsFirst, List.isChain_cons]

-- Behind a closed product, the first INTERSECT makes a product on the right.
theorem intersect_not_mem_of_isLeft (h : (nestBehind (some (l, op)) p rest).IsLeft) :
    l.IsLeft ∧ (∃ a, p = .operand a) ∧ .intersect ∉ rest.map Prod.fst := by
  induction rest generalizing l op p with
  | nil =>
    cases h with
    | combine a hl => exact ⟨hl, ⟨a, rfl⟩, by simp⟩
  | cons r rest ih =>
    obtain ⟨following, b⟩ := r
    by_cases hop : following = .intersect
    · subst hop
      obtain ⟨-, ⟨_, h⟩, -⟩ := ih h
      cases h
    · rw [nestBehind_cons hop] at h
      obtain ⟨hl, -, hrest⟩ := ih h
      cases hl with
      | combine a hl =>
        exact ⟨hl, ⟨a, rfl⟩, by simpa using ⟨Ne.symm hop, by simpa using hrest⟩⟩

theorem nestBehind_eq_foldl (h : .intersect ∉ rest.map Prod.fst) :
    nestBehind (some (l, op)) (.operand a) rest = rest.foldl apply (apply l (op, a)) := by
  induction rest generalizing l op a with
  | nil => rfl
  | cons r rest ih =>
    obtain ⟨following, b⟩ := r
    simp only [List.map_cons, List.mem_cons, not_or] at h
    rw [nestBehind_cons (Ne.symm h.1), ih h.2]
    rfl

theorem nestBehind_eq_foldl_iff (hp : p.IsLeft) :
    nestBehind none p rest = rest.foldl apply p ↔ IntersectsFirst (rest.map Prod.fst) := by
  induction rest generalizing p with
  | nil => simp [nestBehind, close, IntersectsFirst]
  | cons r rest ih =>
    obtain ⟨op, b⟩ := r
    by_cases hop : op = .intersect
    · subst hop
      rw [List.map_cons, intersectsFirst_intersect_cons]
      exact ih (.combine b hp)
    · rw [nestBehind_cons hop, List.map_cons, intersectsFirst_cons hop, close]
      constructor
      · intro h
        have hleft : (nestBehind (some (p, op)) (.operand b) rest).IsLeft := by
          rw [h]
          exact isLeft_foldl hp
        exact (intersect_not_mem_of_isLeft hleft).2.2
      · exact nestBehind_eq_foldl

theorem nest_eq_leftNested_iff :
    nest a rest = leftNested a rest ↔ IntersectsFirst (rest.map Prod.fst) :=
  nestBehind_eq_foldl_iff (.operand a)

end Combination

end EntitySql.Query
