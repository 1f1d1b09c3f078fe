import EntitySql.Proofs.Json.Equality
import EntitySql.Value.Key
import Mathlib.Tactic.Common

-- Values told apart by equality, and as keys of a table, where they must also hash
-- alike. Either test is symmetric, and a value that is not even the same as itself
-- holds a NaN. Without documents either test sorts values into classes.

namespace EntitySql

theorem Timestamp.same_iff {a b : Timestamp} :
    a.same b = true ↔ a.zoned = b.zoned ∧ a.utcMicros = b.utcMicros := by
  simp [Timestamp.same]

namespace Value

mutual

theorem same_symm {a b : Value} (h : a.same b = true) : b.same a = true := by
  cases a <;> cases b <;> simp only [same, beq_iff_eq, Timestamp.same_iff,
    Bool.false_eq_true] at h ⊢
  case array.array => exact sameItems_symm h
  case json.json => exact Json.same_symm h
  case double.double => exact Binary64.beq_symm h
  case timestamp.timestamp => exact ⟨h.1.symm, h.2.symm⟩
  all_goals exact h.symm
termination_by sizeOf a

theorem sameItems_symm {as bs : List Value} (h : sameItems as bs = true) :
    sameItems bs as = true := by
  match as, bs with
  | [], [] => exact h
  | [], _ :: _ => simp [sameItems] at h
  | _ :: _, [] => simp [sameItems] at h
  | a :: as, b :: bs =>
    simp only [sameItems, Bool.and_eq_true] at h ⊢
    exact ⟨same_symm h.1, sameItems_symm h.2⟩
termination_by sizeOf as

end

theorem same_comm (a b : Value) : a.same b = b.same a := by
  rw [Bool.eq_iff_iff]
  exact ⟨same_symm, same_symm⟩

mutual

def holdsDocument : Value → Bool
  | .json _ => true
  | .array items => itemsHoldDocument items
  | _ => false

def itemsHoldDocument : List Value → Bool
  | [] => false
  | v :: rest => v.holdsDocument || itemsHoldDocument rest

end

mutual

theorem holdsDocument_eq_of_same {a b : Value} (h : a.same b = true) :
    a.holdsDocument = b.holdsDocument := by
  cases a with
  | array as =>
    cases b with
    | array bs => exact itemsHoldDocument_eq_of_same h
    | _ => cases h
  | _ => cases b <;> first | rfl | cases h
termination_by sizeOf a

theorem itemsHoldDocument_eq_of_same {as bs : List Value} (h : sameItems as bs = true) :
    itemsHoldDocument as = itemsHoldDocument bs := by
  match as, bs with
  | [], [] => rfl
  | a :: as, b :: bs =>
    rw [sameItems, Bool.and_eq_true] at h
    rw [itemsHoldDocument, itemsHoldDocument, holdsDocument_eq_of_same h.1,
      itemsHoldDocument_eq_of_same h.2]
termination_by sizeOf as

end

mutual

-- Equality of documents is not transitive.
theorem same_trans {a b c : Value} (hb : b.holdsDocument = false) (hab : a.same b = true)
    (hbc : b.same c = true) : a.same c = true := by
  match a, b, c with
  | .null, .null, .null => rfl
  | .bool _, .bool _, .bool _ => simp_all [same]
  | .int _, .int _, .int _ => simp_all [same]
  | .double _, .double _, .double _ => exact Binary64.beq_trans hab hbc
  | .string _, .string _, .string _ => simp_all [same]
  | .uuid _, .uuid _, .uuid _ => simp_all [same]
  | .timestamp _, .timestamp _, .timestamp _ => simp_all [same, Timestamp.same_iff]
  | .bytes _, .bytes _, .bytes _ => simp_all [same]
  | .array as, .array bs, .array cs => exact sameItems_trans hb hab hbc
  | .json _, .json _, .json _ => cases hb
  | .inet _, .inet _, .inet _ => simp_all [same]
termination_by sizeOf a

theorem sameItems_trans {as bs cs : List Value} (hbs : itemsHoldDocument bs = false)
    (hab : sameItems as bs = true) (hbc : sameItems bs cs = true) : sameItems as cs = true := by
  match as, bs, cs with
  | [], [], [] => rfl
  | a :: as, b :: bs, c :: cs =>
    rw [itemsHoldDocument, Bool.or_eq_false_iff] at hbs
    simp only [sameItems, Bool.and_eq_true] at hab hbc ⊢
    exact ⟨same_trans hbs.1 hab.1 hbc.1, sameItems_trans hbs.2 hab.2 hbc.2⟩
termination_by sizeOf as

end

mutual

def holdsNan : Value → Bool
  | .double x => x.isNaN
  | .array items => itemsHoldNan items
  | .json j => j.holdsNan
  | _ => false

def itemsHoldNan : List Value → Bool
  | [] => false
  | v :: rest => v.holdsNan || itemsHoldNan rest

end

mutual

theorem same_self (v : Value) : v.same v = !v.holdsNan := by
  cases v with
  | double x => exact Binary64.beq_self x
  | array items => exact sameItems_self items
  | json j => exact j.same_self
  | _ => simp [same, holdsNan, Timestamp.same]

theorem sameItems_self (items : List Value) : sameItems items items = !itemsHoldNan items := by
  cases items with
  | nil => rfl
  | cons v rest =>
    rw [sameItems, itemsHoldNan, same_self v, sameItems_self rest, Bool.not_or]

end

theorem itemsHoldNan_eq_false {items : List Value} (h : ∀ v ∈ items, v.holdsNan = false) :
    itemsHoldNan items = false := by
  induction items with
  | nil => rfl
  | cons v rest ih =>
    obtain ⟨hv, hrest⟩ := List.forall_mem_cons.mp h
    rw [itemsHoldNan, hv, ih hrest, Bool.or_false]

variable {f : HashFunctions} {a b : Value}

theorem sameKey_iff : a.sameKey f b = true ↔ a.hash f = b.hash f ∧ a.same b = true := by
  rw [sameKey, Bool.and_eq_true, beq_iff_eq]

theorem sameKey_comm (f : HashFunctions) (a b : Value) : a.sameKey f b = b.sameKey f a := by
  rw [Bool.eq_iff_iff, sameKey_iff, sameKey_iff, same_comm, eq_comm]

theorem sameKey_trans {c : Value} (hc : c.holdsDocument = false) (hab : a.sameKey f b = true)
    (hbc : b.sameKey f c = true) : a.sameKey f c = true := by
  rw [sameKey_iff] at hab hbc ⊢
  have hb : b.holdsDocument = false := by rw [holdsDocument_eq_of_same hbc.2, hc]
  exact ⟨hab.1.trans hbc.1, same_trans hb hab.2 hbc.2⟩

theorem sameKey_self (f : HashFunctions) (v : Value) : v.sameKey f v = !v.holdsNan := by
  rw [sameKey, same_self, beq_self_eq_true, Bool.true_and]

end Value

-- A test that sorts all values into classes.
structure Classifies (same : Value → Value → Bool) : Prop where
  comm : ∀ a b, same a b = same b a
  trans : ∀ {a b c}, same a b = true → same b c = true → same a c = true

namespace Classifies

variable {same : Value → Value → Bool} {a b : Value}

theorem symm (h : Classifies same) (hab : same a b = true) : same b a = true := by
  rwa [h.comm]

-- A value that is the same as a known one stands for the same class.
theorem congr (h : Classifies same) (hab : same a b = true) (c : Value) : same a c = same b c := by
  rw [Bool.eq_iff_iff]
  exact ⟨h.trans (h.symm hab), h.trans hab⟩

theorem congr_right (h : Classifies same) (hab : same a b = true) (c : Value) :
    same c a = same c b := by
  rw [h.comm c a, h.comm c b, h.congr hab]

end Classifies

-- A test that sorts the values of a list into classes, if it is symmetric.
def TransitiveOn (values : List Value) (same : Value → Value → Bool) : Prop :=
  ∀ a ∈ values, ∀ b ∈ values, ∀ c ∈ values, same a b = true → same b c = true → same a c = true

section Restricted

open Classical in
-- The test for the values of a list alone; others are not even the same as themselves.
noncomputable def restricted (values : List Value) (same : Value → Value → Bool) (a b : Value) :
    Bool :=
  decide (a ∈ values ∧ b ∈ values) && same a b

variable {same : Value → Value → Bool} {values : List Value} {a b : Value}

theorem restricted_iff :
    restricted values same a b = true ↔ (a ∈ values ∧ b ∈ values) ∧ same a b = true := by
  simp [restricted]

theorem restricted_of_mem (ha : a ∈ values) (hb : b ∈ values) :
    restricted values same a b = same a b := by
  rw [Bool.eq_iff_iff, restricted_iff]
  exact and_iff_right ⟨ha, hb⟩

theorem TransitiveOn.classifies (h : TransitiveOn values same)
    (hcomm : ∀ a b, same a b = same b a) : Classifies (restricted values same) where
  comm a b := by rw [Bool.eq_iff_iff, restricted_iff, restricted_iff, hcomm, and_comm (a := b ∈ values)]
  trans hab hbc := by
    rw [restricted_iff] at hab hbc ⊢
    exact ⟨⟨hab.1.1, hbc.1.2⟩, h _ hab.1.1 _ hab.1.2 _ hbc.1.2 hab.2 hbc.2⟩

end Restricted

theorem transitiveOn_same {values : List Value} (h : ∀ v ∈ values, v.holdsDocument = false) :
    TransitiveOn values Value.same :=
  fun _ _ b hb _ _ => Value.same_trans (h b hb)

-- Hashes are told apart by equality in any case.
theorem TransitiveOn.sameKey {values : List Value} (h : TransitiveOn values Value.same)
    (f : HashFunctions) : TransitiveOn values (Value.sameKey f) := by
  intro a ha b hb c hc hab hbc
  rw [Value.sameKey_iff] at hab hbc ⊢
  exact ⟨hab.1.trans hbc.1, h a ha b hb c hc hab.2 hbc.2⟩

theorem transitiveOn_sameKey (f : HashFunctions) {values : List Value}
    (h : ∀ v ∈ values, v.holdsDocument = false) : TransitiveOn values (Value.sameKey f) :=
  (transitiveOn_same h).sameKey f

end EntitySql
