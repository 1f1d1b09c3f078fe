import EntitySql.Proofs.Conversion.Stored
import EntitySql.Proofs.Text.Order

-- The order of values against their equality. Both are written for each kind
-- anew and carried on to arrays. They agree on every kind but timestamps, which
-- are ordered as instants, while equality also asks whether they are zoned.

namespace EntitySql

namespace Inet

theorem groups_of_bytes {a b : List UInt16}
    (h : (a.flatMap fun g => [UInt8.ofNat (g.toNat / 256), UInt8.ofNat (g.toNat % 256)]) =
      b.flatMap fun g => [UInt8.ofNat (g.toNat / 256), UInt8.ofNat (g.toNat % 256)]) : a = b := by
  induction a generalizing b with
  | nil => cases b <;> simp_all
  | cons x a ih =>
    cases b with
    | nil => simp at h
    | cons y b =>
      simp only [List.flatMap_cons, List.cons_append, List.nil_append, List.cons.injEq] at h
      obtain ⟨hhigh, hlow, hrest⟩ := h
      have hx := x.toNat_lt
      have hy := y.toNat_lt
      have hdiv := congrArg UInt8.toNat hhigh
      have hmod := congrArg UInt8.toNat hlow
      simp only [UInt8.toNat_ofNat'] at hdiv hmod
      have hsame : x.toNat = y.toNat := by omega
      rw [ih hrest, UInt16.toNat_inj.mp hsame]

-- Within one family the bytes tell the host.
theorem eq_iff {a b : Inet} :
    a = b ↔ a.isV6 = b.isV6 ∧ a.bytes = b.bytes ∧ a.maskLength = b.maskLength := by
  constructor
  · rintro rfl
    exact ⟨rfl, rfl, rfl⟩
  · rintro ⟨hfamily, hbytes, hmask⟩
    obtain ⟨host, mask⟩ := a
    obtain ⟨host', mask'⟩ := b
    obtain rfl : mask = mask' := hmask
    congr 1
    match host, host' with
    | .v4 ⟨p, _⟩, .v4 ⟨q, _⟩ =>
      have hsame : p = q := List.append_cancel_right hbytes
      subst hsame
      rfl
    | .v6 ⟨p, _⟩, .v6 ⟨q, _⟩ =>
      have hsame : p = q := groups_of_bytes hbytes
      subst hsame
      rfl

-- The family, the bytes and the mask, compared in this order.
def order (a b : Inet) : Ordering :=
  ((compare a.isV6 b.isV6).then (compare a.bytes b.bytes)).then (compare a.maskLength b.maskLength)

theorem order_swap (a b : Inet) : order b a = (order a b).swap := by
  simp only [order, Ordering.swap_then, ← Std.OrientedOrd.eq_swap]

theorem order_eq_iff {a b : Inet} : order a b = .eq ↔ a = b := by
  simp only [order, Ordering.then_eq_eq, Std.LawfulEqOrd.compare_eq_iff_eq, eq_iff, and_assoc]

theorem less_eq_isLT (a b : Inet) : a.less b = (order a b).isLT := by
  rw [less, order]
  by_cases hfamily : a.isV6 = b.isV6
  · have hfirst : compare a.isV6 b.isV6 = .eq := Std.LawfulEqOrd.compare_eq_iff_eq.mpr hfamily
    rw [if_neg (by simpa using hfamily), hfirst]
    by_cases hbytes : a.bytes = b.bytes
    · have hsecond : compare a.bytes b.bytes = .eq := Std.LawfulEqOrd.compare_eq_iff_eq.mpr hbytes
      rw [if_neg (by simpa using hbytes), hsecond]
      cases a.maskLength with
      | none => cases b.maskLength <;> rfl
      | some m =>
        cases b.maskLength with
        | none => rfl
        | some n =>
          rw [Bool.eq_iff_iff, decide_eq_true_iff, Ordering.isLT_iff_eq_lt]
          exact Std.compare_eq_lt.symm
    · rw [if_pos hbytes, Text.less_eq_isLT]
      cases hcompare : compare a.bytes b.bytes with
      | eq => exact absurd (Std.LawfulEqOrd.compare_eq_iff_eq.mp hcompare) hbytes
      | lt => rfl
      | gt => rfl
  · rw [if_pos hfamily]
    cases ha : a.isV6 <;> cases hb : b.isV6
    · exact absurd (ha.trans hb.symm) hfamily
    · rfl
    · rfl
    · exact absurd (ha.trans hb.symm) hfamily

end Inet

namespace Value

theorem orderBy_eq {α : Type} {less : α → α → Bool} {a b : α} {o : Ordering}
    (h : less a b = o.isLT) (h' : less b a = o.swap.isLT) : orderBy less a b = o := by
  rw [orderBy, h, h']
  cases o <;> rfl

-- The order within one kind, as comparisons of what the values hold.

theorem order_bool (a b : Bool) : order (.bool a) (.bool b) = compare a b := by
  cases a <;> cases b <;> rfl

theorem order_string (a b : Text) : order (.string a) (.string b) = compare a b :=
  Text.order_eq_compare a b

theorem order_bytes (a b : List UInt8) : order (.bytes a) (.bytes b) = compare a b :=
  Text.order_eq_compare a b

theorem order_int (a b : Int64) : order (.int a) (.int b) = compare a b := by
  have hless (x y : Int64) : decide (x < y) = (compare x y).isLT := by
    rw [Bool.eq_iff_iff, decide_eq_true_iff, Ordering.isLT_iff_eq_lt, Std.compare_eq_lt]
  rw [order]
  refine orderBy_eq (hless a b) ?_
  rw [← Std.OrientedOrd.eq_swap]
  exact hless b a

theorem order_uuid (a b : Uuid) : order (.uuid a) (.uuid b) = compare a.bytes b.bytes :=
  orderBy_eq (Text.less_eq_isLT a.bytes b.bytes)
    (by rw [← Std.OrientedOrd.eq_swap]; exact Text.less_eq_isLT b.bytes a.bytes)

theorem order_timestamp (a b : Timestamp) :
    order (.timestamp a) (.timestamp b) = compare a.utcMicros b.utcMicros := by
  have hless (x y : Timestamp) : x.less y = (compare x.utcMicros y.utcMicros).isLT := by
    rw [Bool.eq_iff_iff, Timestamp.less, decide_eq_true_iff, Ordering.isLT_iff_eq_lt,
      Std.compare_eq_lt]
  refine orderBy_eq (hless a b) ?_
  rw [← Std.OrientedOrd.eq_swap]
  exact hless b a

theorem order_inet (a b : Inet) : order (.inet a) (.inet b) = a.order b :=
  orderBy_eq (a.less_eq_isLT b) (by rw [← Inet.order_swap]; exact b.less_eq_isLT a)

-- Values of different kinds stand in the order of the kinds.

theorem order_of_kind_ne {a b : Value} (h : a.kind ≠ b.kind) :
    order a b = compare a.kind.rank b.kind.rank := by
  cases a <;> cases b <;> first | rfl | exact absurd rfl h

theorem same_of_kind_ne {a b : Value} (h : a.kind ≠ b.kind) : a.same b = false := by
  cases a <;> cases b <;> first | rfl | exact absurd rfl h

theorem kind_atUtc (v : Value) : v.atUtc.kind = v.kind := by
  cases v <;> rfl

mutual

-- Without doubles and documents, also within arrays.
def isExact : Value → Bool
  | .double _ => false
  | .json _ => false
  | .array items => areExact items
  | _ => true

def areExact : List Value → Bool
  | [] => true
  | v :: rest => v.isExact && areExact rest

end

mutual

-- Whether timestamps at the same place are zoned alike.
def zonedAlike : Value → Value → Bool
  | .timestamp a, .timestamp b => a.zoned == b.zoned
  | .array as, .array bs => itemsZonedAlike as bs
  | _, _ => true

def itemsZonedAlike : List Value → List Value → Bool
  | a :: as, b :: bs => a.zonedAlike b && itemsZonedAlike as bs
  | _, _ => true

end

mutual

theorem order_swap {a b : Value} (ha : a.isExact = true) (hb : b.isExact = true) :
    order b a = (order a b).swap := by
  by_cases hkind : a.kind = b.kind
  · match a, b with
    | .null, .null => rfl
    | .bool a, .bool b => rw [order_bool, order_bool, ← Std.OrientedOrd.eq_swap]
    | .int a, .int b => rw [order_int, order_int, ← Std.OrientedOrd.eq_swap]
    | .string a, .string b => rw [order_string, order_string, ← Std.OrientedOrd.eq_swap]
    | .uuid a, .uuid b => rw [order_uuid, order_uuid, ← Std.OrientedOrd.eq_swap]
    | .timestamp a, .timestamp b => rw [order_timestamp, order_timestamp, ← Std.OrientedOrd.eq_swap]
    | .bytes a, .bytes b => rw [order_bytes, order_bytes, ← Std.OrientedOrd.eq_swap]
    | .array as, .array bs =>
      rw [order, order]
      exact orderItems_swap ha hb
    | .inet a, .inet b => rw [order_inet, order_inet, Inet.order_swap]
  · rw [order_of_kind_ne hkind, order_of_kind_ne (Ne.symm hkind), ← Std.OrientedOrd.eq_swap]
termination_by sizeOf a

theorem orderItems_swap {as bs : List Value} (has : areExact as = true) (hbs : areExact bs = true) :
    orderItems bs as = (orderItems as bs).swap := by
  match as, bs with
  | [], [] => rfl
  | [], _ :: _ => rfl
  | _ :: _, [] => rfl
  | a :: as, b :: bs =>
    rw [areExact, Bool.and_eq_true] at has hbs
    rw [orderItems, orderItems, Ordering.swap_then, order_swap has.1 hbs.1,
      orderItems_swap has.2 hbs.2]
termination_by sizeOf as

end

theorem Timestamp.toUtc_eq_iff {a b : Timestamp} : a.toUtc = b.toUtc ↔ a.utcMicros = b.utcMicros := by
  simp [Timestamp.toUtc, Timestamp.ofUtc]

mutual

-- Values of which neither comes first are equal once timestamps are turned to
-- UTC.
theorem order_eq_iff {a b : Value} (ha : a.isExact = true) (hb : b.isExact = true) :
    order a b = .eq ↔ a.atUtc = b.atUtc := by
  by_cases hkind : a.kind = b.kind
  · match a, b with
    | .null, .null => simp [order]
    | .bool a, .bool b => simp [order_bool, atUtc]
    | .int a, .int b => simp [order_int, atUtc]
    | .string a, .string b => simp [order_string, atUtc]
    | .uuid ⟨_, _⟩, .uuid ⟨_, _⟩ => simp [order_uuid, atUtc]
    | .timestamp a, .timestamp b => simp [order_timestamp, atUtc, Timestamp.toUtc_eq_iff]
    | .bytes a, .bytes b => simp [order_bytes, atUtc]
    | .array as, .array bs =>
      rw [order, atUtc, atUtc, Value.array.injEq]
      exact orderItems_eq_iff ha hb
    | .inet a, .inet b => simp [order_inet, atUtc, Inet.order_eq_iff]
  · have hranks : compare a.kind.rank b.kind.rank ≠ .eq := by
      rw [Ne, Std.LawfulEqOrd.compare_eq_iff_eq]
      revert hkind
      cases a.kind <;> cases b.kind <;> decide
    rw [order_of_kind_ne hkind]
    refine iff_of_false hranks fun h => hkind ?_
    rw [← kind_atUtc a, h, kind_atUtc]
termination_by sizeOf a

theorem orderItems_eq_iff {as bs : List Value} (has : areExact as = true)
    (hbs : areExact bs = true) : orderItems as bs = .eq ↔ itemsAtUtc as = itemsAtUtc bs := by
  match as, bs with
  | [], [] => simp [orderItems]
  | [], _ :: _ => simp [orderItems, itemsAtUtc]
  | _ :: _, [] => simp [orderItems, itemsAtUtc]
  | a :: as, b :: bs =>
    rw [areExact, Bool.and_eq_true] at has hbs
    rw [orderItems, Ordering.then_eq_eq, itemsAtUtc, itemsAtUtc, List.cons.injEq,
      order_eq_iff has.1 hbs.1, orderItems_eq_iff has.2 hbs.2]
termination_by sizeOf as

end

mutual

-- Equal values are also zoned alike.
theorem same_iff {a b : Value} (ha : a.isExact = true) (hb : b.isExact = true) :
    a.same b = true ↔ a.atUtc = b.atUtc ∧ a.zonedAlike b = true := by
  by_cases hkind : a.kind = b.kind
  · match a, b with
    | .null, .null => simp [same, zonedAlike]
    | .bool a, .bool b => simp [same, atUtc, zonedAlike]
    | .int a, .int b => simp [same, atUtc, zonedAlike]
    | .string a, .string b => simp [same, atUtc, zonedAlike]
    | .uuid a, .uuid b => simp [same, atUtc, zonedAlike]
    | .timestamp a, .timestamp b =>
      simp [same, atUtc, zonedAlike, Timestamp.toUtc_eq_iff, Timestamp.same, and_comm]
    | .bytes a, .bytes b => simp [same, atUtc, zonedAlike]
    | .array as, .array bs =>
      rw [same, atUtc, atUtc, Value.array.injEq, zonedAlike]
      exact sameItems_iff ha hb
    | .inet a, .inet b => simp [same, atUtc, zonedAlike]
  · rw [same_of_kind_ne hkind]
    refine iff_of_false Bool.false_ne_true fun h => hkind ?_
    rw [← kind_atUtc a, h.1, kind_atUtc]
termination_by sizeOf a

theorem sameItems_iff {as bs : List Value} (has : areExact as = true) (hbs : areExact bs = true) :
    sameItems as bs = true ↔ itemsAtUtc as = itemsAtUtc bs ∧ itemsZonedAlike as bs = true := by
  match as, bs with
  | [], [] => simp [sameItems, itemsZonedAlike]
  | [], _ :: _ => simp [sameItems, itemsAtUtc]
  | _ :: _, [] => simp [sameItems, itemsAtUtc]
  | a :: as, b :: bs =>
    rw [areExact, Bool.and_eq_true] at has hbs
    rw [sameItems, itemsAtUtc, itemsAtUtc, List.cons.injEq, itemsZonedAlike, Bool.and_eq_true,
      Bool.and_eq_true, same_iff has.1 hbs.1, sameItems_iff has.2 hbs.2, and_and_and_comm]
termination_by sizeOf as

end

def ExactlyOne (p q r : Prop) : Prop := (p ∧ ¬q ∧ ¬r) ∨ (¬p ∧ q ∧ ¬r) ∨ (¬p ∧ ¬q ∧ r)

-- One of two values comes first unless they are equal in UTC.
theorem exactlyOne_less {a b : Value} (ha : a.isExact = true) (hb : b.isExact = true) :
    ExactlyOne (a.less b = true) (a.atUtc = b.atUtc) (b.less a = true) := by
  rw [less, less, ← order_eq_iff ha hb, order_swap ha hb]
  cases order a b <;> simp [ExactlyOne]

end Value

end EntitySql
