import EntitySql.Eval
import EntitySql.Proofs.Value.Order

-- The comparison operators of expressions against the order and the equality
-- of values.

namespace EntitySql.Eval

-- What a binary operator answers for the values of its operands.
def answer (op : BinaryOp) (a b : Value) (source : Expr) (s : Scope) : Result Value :=
  binaryAccessor op (fun _ => .ok a) (fun _ => .ok b) source s

variable {a b : Value} {source : Expr} {s : Scope}

theorem compareValues_of_kind_eq (ha : a.isExact = true) (hkind : a.kind = b.kind) :
    compareValues a b source = .ok (a.order b) := by
  cases a with
  | int x =>
    cases b with
    | int y => rfl
    | _ => cases hkind
  | double x => cases ha
  | _ => exact if_pos hkind

theorem valuesEqual_eq_same (ha : a.isExact = true) (hb : b.isExact = true) :
    valuesEqual a b = a.same b := by
  cases a with
  | double x => cases ha
  | int x =>
    cases b with
    | double y => cases hb
    | _ => rfl
  | _ => rfl

theorem isNull_of_kind_eq (h : a.kind = b.kind) : a.isNull = b.isNull := by
  cases a <;> cases b <;> first | rfl | cases h

-- A comparison with null has an answer of its own.
theorem answer_compare (ha : a.isExact = true) (hkind : a.kind = b.kind) (hnull : a.isNull = false)
    (c : Comparison) :
    answer (.compare c) a b source s = .ok (.bool (holds c (a.order b))) := by
  have hnull' : b.isNull = false := by rw [← isNull_of_kind_eq hkind, hnull]
  simp only [answer, binaryAccessor, hnull, hnull', compareValues_of_kind_eq ha hkind, bind,
    Except.bind]
  rfl

theorem answer_equal (ha : a.isExact = true) (hb : b.isExact = true) :
    answer .equal a b source s = .ok (.bool (a.same b)) := by
  rw [← valuesEqual_eq_same ha hb]
  rfl

theorem answer_lessOrEqual_iff (ha : a.isExact = true) (hkind : a.kind = b.kind)
    (hnull : a.isNull = false) :
    answer (.compare .lessOrEqual) a b source s = .ok (.bool true) ↔ a.order b ≠ .gt := by
  rw [answer_compare ha hkind hnull, holds]
  cases a.order b <;> simp

-- Two values that differ in more than the zones of timestamps are equal, or else
-- one of them comes first; and the comparisons of expressions see them as equal
-- exactly if neither is greater.
theorem coherent_comparisons (ha : a.isExact = true) (hb : b.isExact = true)
    (hzones : a.atUtc = b.atUtc → a.zonedAlike b = true) :
    Value.ExactlyOne (a.less b = true) (a.same b = true) (b.less a = true) ∧
      ∀ source s, a.kind = b.kind → a.isNull = false →
        (answer (.compare .lessOrEqual) a b source s = .ok (.bool true) ∧
            answer (.compare .lessOrEqual) b a source s = .ok (.bool true) ↔
          answer .equal a b source s = .ok (.bool true)) := by
  have hsame : a.same b = true ↔ a.atUtc = b.atUtc := by
    rw [Value.same_iff ha hb]
    exact ⟨And.left, fun h => ⟨h, hzones h⟩⟩
  refine ⟨?_, fun source s hkind hnull => ?_⟩
  · rw [hsame]
    exact Value.exactlyOne_less ha hb
  · have hnull' : b.isNull = false := by rw [← isNull_of_kind_eq hkind, hnull]
    rw [answer_lessOrEqual_iff ha hkind hnull, answer_lessOrEqual_iff hb hkind.symm hnull',
      answer_equal ha hb, Value.order_swap ha hb]
    have hequal : (Except.ok (.bool (a.same b)) : Result Value) = .ok (.bool true) ↔
        a.order b = .eq := by
      rw [Value.order_eq_iff ha hb, ← hsame]
      simp
    rw [hequal]
    cases a.order b <;> simp

-- One meeting in two zones, with two hosts.
def localMeeting : Value :=
  .array [.timestamp ⟨36000000000, true, 120⟩, .array [.string "Room", .inet Inet.unspecified]]

def utcMeeting : Value :=
  .array [.timestamp ⟨28800000000, true, 0⟩,
    .array [.string "Room", .inet { Inet.unspecified with maskLength := some 8 }]]

theorem coherent_comparisons_meetings :
    localMeeting.isExact = true ∧ utcMeeting.isExact = true ∧
      (localMeeting.atUtc = utcMeeting.atUtc → localMeeting.zonedAlike utcMeeting = true) ∧
      localMeeting.kind = utcMeeting.kind ∧ localMeeting.isNull = false ∧
      Value.ExactlyOne (localMeeting.less utcMeeting = true) (localMeeting.same utcMeeting = true)
        (utcMeeting.less localMeeting = true) ∧
      (answer (.compare .lessOrEqual) localMeeting utcMeeting (.captured 0 "m" 0)
            { captures := fun _ => .null } = .ok (.bool true) ∧
          answer (.compare .lessOrEqual) utcMeeting localMeeting (.captured 0 "m" 0)
            { captures := fun _ => .null } = .ok (.bool true) ↔
        answer .equal localMeeting utcMeeting (.captured 0 "m" 0) { captures := fun _ => .null } =
          .ok (.bool true)) := by
  have hlocal : localMeeting.isExact = true := by decide
  have hutc : utcMeeting.isExact = true := by decide
  have hzones : localMeeting.zonedAlike utcMeeting = true := by decide
  have hcoherent := coherent_comparisons hlocal hutc fun _ => hzones
  exact ⟨hlocal, hutc, fun _ => hzones, rfl, rfl, hcoherent.1, hcoherent.2 _ _ rfl rfl⟩

-- The start of 1970 with and without a zone: neither comes first, and yet they
-- are not equal. And null is equal to null, but not at most null.
theorem incoherent_startOfTime :
    ¬Value.ExactlyOne
        (Value.less (.timestamp ⟨0, true, 0⟩) (.timestamp ⟨0, false, 0⟩) = true)
        (Value.same (.timestamp ⟨0, true, 0⟩) (.timestamp ⟨0, false, 0⟩) = true)
        (Value.less (.timestamp ⟨0, false, 0⟩) (.timestamp ⟨0, true, 0⟩) = true) ∧
      answer .equal .null .null (.captured 0 "m" 0) { captures := fun _ => .null } =
        .ok (.bool true) ∧
      answer (.compare .lessOrEqual) .null .null (.captured 0 "m" 0)
        { captures := fun _ => .null } = .ok (.bool false) := by
  refine ⟨?_, rfl, rfl⟩
  unfold Value.ExactlyOne
  decide

end EntitySql.Eval
