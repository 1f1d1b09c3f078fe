import EntitySql.Json
import EntitySql.Proofs.Binary64.Equality

-- Equality of documents is symmetric, and only a NaN keeps it from being reflexive.
-- It is not transitive: two great integers may be equal to one double.

namespace EntitySql.Json

mutual

theorem same_symm {a b : Json} (h : a.same b = true) : b.same a = true := by
  cases a <;> cases b <;> simp only [same, beq_iff_eq, Bool.false_eq_true] at h ⊢
  case int.double => exact Binary64.beq_symm h
  case unsigned.double => exact Binary64.beq_symm h
  case double.int => exact Binary64.beq_symm h
  case double.unsigned => exact Binary64.beq_symm h
  case double.double => exact Binary64.beq_symm h
  case array.array => exact sameItems_symm h
  case object.object => exact sameMembers_symm h
  all_goals exact h.symm
termination_by sizeOf a

theorem sameItems_symm {as bs : List Json} (h : sameItems as bs = true) :
    sameItems bs as = true := by
  cases as with
  | nil => cases bs <;> simp_all [sameItems]
  | cons a as =>
    cases bs with
    | nil => simp [sameItems] at h
    | cons b bs =>
      simp only [sameItems, Bool.and_eq_true] at h ⊢
      exact ⟨same_symm h.1, sameItems_symm h.2⟩
termination_by sizeOf as

theorem sameMembers_symm {as bs : List (Text × Json)} (h : sameMembers as bs = true) :
    sameMembers bs as = true := by
  match as, bs with
  | [], [] => exact h
  | [], _ :: _ => simp [sameMembers] at h
  | _ :: _, [] => simp [sameMembers] at h
  | (k, a) :: as, (l, b) :: bs =>
    simp only [sameMembers, Bool.and_eq_true, beq_iff_eq] at h ⊢
    exact ⟨⟨h.1.1.symm, same_symm h.1.2⟩, sameMembers_symm h.2⟩
termination_by sizeOf as

end

-- A document is the same as itself unless it holds a NaN.

mutual

def holdsNan : Json → Bool
  | .double x => x.isNaN
  | .array items => itemsHoldNan items
  | .object members => membersHoldNan members
  | _ => false

def itemsHoldNan : List Json → Bool
  | [] => false
  | j :: rest => j.holdsNan || itemsHoldNan rest

def membersHoldNan : List (Text × Json) → Bool
  | [] => false
  | (_, j) :: rest => j.holdsNan || membersHoldNan rest

end

mutual

theorem same_self (j : Json) : j.same j = !j.holdsNan := by
  cases j with
  | double x => exact Binary64.beq_self x
  | array items => exact sameItems_self items
  | object members => exact sameMembers_self members
  | _ => simp [same, holdsNan]

theorem sameItems_self (items : List Json) : sameItems items items = !itemsHoldNan items := by
  cases items with
  | nil => rfl
  | cons j rest =>
    rw [sameItems, itemsHoldNan, same_self j, sameItems_self rest, Bool.not_or]

theorem sameMembers_self (members : List (Text × Json)) :
    sameMembers members members = !membersHoldNan members := by
  cases members with
  | nil => rfl
  | cons m rest =>
    obtain ⟨k, j⟩ := m
    rw [sameMembers, membersHoldNan, same_self j, sameMembers_self rest, Bool.not_or]
    simp

end

end EntitySql.Json
