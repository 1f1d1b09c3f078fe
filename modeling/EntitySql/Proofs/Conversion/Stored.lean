import EntitySql.Conversion.Database
import EntitySql.Schema

-- Cells that hold what their field maps come out of the conversion as they
-- are, but for timestamps, which are turned to UTC.

namespace EntitySql

-- The values of a column that is mapped to a member of the type.
def MemberType.Holds : MemberType → Value → Prop
  | .bool, .bool _ => True
  | .int32, .int n => Text.inWord 32 n.toInt = true
  | .int64, .int _ => True
  | .double, .double _ => True
  | .string, .string _ => True
  | .uuid, .uuid _ => True
  | .timestamp, .timestamp _ => True
  | .bytes, .bytes _ => True
  | .json, .json _ => True
  | .inet, .inet _ => True
  | .array item, .array items => ∀ v ∈ items, item.Holds v
  | .optional inner, v => v.isNull = true ∨ inner.Holds v
  | _, _ => False

namespace Value

mutual

def atUtc : Value → Value
  | .timestamp t => .timestamp t.toUtc
  | .array items => .array (itemsAtUtc items)
  | v => v

def itemsAtUtc : List Value → List Value
  | [] => []
  | v :: rest => v.atUtc :: itemsAtUtc rest

end

theorem itemsAtUtc_eq_map (items : List Value) : itemsAtUtc items = items.map atUtc := by
  induction items with
  | nil => rfl
  | cons v rest ih => rw [itemsAtUtc, ih, List.map_cons]

theorem isNull_iff {v : Value} : v.isNull = true ↔ v = .null := by
  cases v <;> simp [isNull]

end Value

-- The value that an instance has for a cell.
def Field.stored (f : Field) (cell : Value) : Value := if cell.isNull then f.nullValue else cell.atUtc

-- The member types that hold neither items nor nulls.
def MemberType.isScalar : MemberType → Bool
  | .array _ => false
  | .optional _ => false
  | _ => true

namespace Conversion.Converter

open MemberType (Holds)

variable {m : MemberType} {v : Value}

theorem scalarFromDatabase_of_holds (hscalar : m.isScalar = true) (h : m.Holds v) {type : FieldType}
    (hrefines : Entity.refines m.fieldType type = true) {name : Text}
    (hroute : Route.classify type name = Route.classify type []) (element : FieldType) :
    ({} : Converter).scalarFromDatabase v name type element = .ok v.atUtc := by
  rw [scalarFromDatabase, hroute]
  cases m
  case array => cases hscalar
  case optional => cases hscalar
  all_goals
    cases v <;> simp only [Holds] at h
    cases type <;>
      first
        | exact absurd hrefines (by decide)
        | rfl
        | skip
  -- Only integers of 32 bits are checked against a range.
  case int32.int.int32 n =>
    have hgeneric : Route.classify .int32 [] = .generic := by decide
    rw [hgeneric]
    change toInteger (.int n) .int32 = .ok (.int n)
    simp [toInteger, integer?, h]

-- The items of an array have the innermost item type as their field type.
theorem elementType_ne_array (m : MemberType) : m.elementType ≠ .array := by
  induction m with
  | array item ih => exact ih
  | optional inner ih => exact ih
  | _ => decide

theorem arrayItem_scalar (hscalar : m.isScalar = true) (h : m.Holds v) (ofLiteral : Text → Result Value) :
    ({} : Converter).arrayItem m.elementType ofLiteral v = .ok v.atUtc := by
  have helement : m.elementType = m.fieldType := by
    cases m <;> first | rfl | cases hscalar
  have hne := elementType_ne_array m
  have hrefines : Entity.refines m.fieldType m.elementType = true := by
    rw [helement]
    cases m <;> first | decide | cases hscalar
  have hitem : ({} : Converter).scalarFromDatabase v [] m.elementType m.elementType = .ok v.atUtc :=
    scalarFromDatabase_of_holds hscalar h hrefines rfl m.elementType
  cases v with
  | null => cases m <;> first | (cases hscalar; done) | cases h
  | array items => cases m <;> first | (cases hscalar; done) | cases h
  | string t => simpa only [arrayItem, if_neg hne] using hitem
  | _ => simpa only [arrayItem, if_neg hne] using hitem

theorem arrayItems_of_forall {element : FieldType} {ofLiteral : Text → Result Value} {items : List Value}
    (h : ∀ v ∈ items, ({} : Converter).arrayItem element ofLiteral v = .ok v.atUtc) :
    ({} : Converter).arrayItems element ofLiteral items = .ok (items.map Value.atUtc) := by
  induction items with
  | nil => rfl
  | cons v rest ih =>
    have hfirst := h v (List.mem_cons_self ..)
    have hrest := ih fun w hw => h w (List.mem_cons_of_mem v hw)
    simp only [arrayItems, hfirst, hrest]
    rfl

theorem arrayItem_of_holds (h : m.Holds v) (ofLiteral : Text → Result Value) :
    ({} : Converter).arrayItem m.elementType ofLiteral v = .ok v.atUtc := by
  induction m generalizing v with
  | array item ih =>
    cases v with
    | array items =>
      have hitems : ({} : Converter).arrayItems item.elementType ofLiteral items =
          .ok (items.map Value.atUtc) := arrayItems_of_forall fun w hw => ih (h w hw)
      simp only [arrayItem, MemberType.elementType, hitems, Value.atUtc, Value.itemsAtUtc_eq_map]
      rfl
    | _ => simp [Holds] at h
  | optional inner ih =>
    rcases h with hnull | h
    · obtain rfl := Value.isNull_iff.mp hnull
      simp [arrayItem, Value.atUtc]
    · exact ih h
  | _ => exact arrayItem_scalar rfl h ofLiteral

-- A cell that holds what its field maps is converted.
theorem fromDatabase_of_holds (h : m.Holds v) (hnull : v.isNull = false) {type : FieldType}
    (hrefines : Entity.refines m.fieldType type = true) {name : Text}
    (hroute : Route.classify type name = Route.classify type []) :
    ({} : Converter).fromDatabase v name type m.elementType = .ok v.atUtc := by
  induction m with
  | optional inner ih =>
    rcases h with h | h
    · rw [h] at hnull
      cases hnull
    · exact ih h hrefines
  | array item =>
    have harray : type = .array := by
      have hrefines : Entity.refines .array type = true := hrefines
      cases type <;> first | rfl | exact absurd hrefines (by decide)
    cases v with
    | array items =>
      have hitems : ∀ ofLiteral, ({} : Converter).arrayItems item.elementType ofLiteral items =
          .ok (items.map Value.atUtc) := fun ofLiteral =>
        arrayItems_of_forall fun w hw => arrayItem_of_holds (h w hw) ofLiteral
      simp only [fromDatabase, hnull, harray, if_true, toArray, MemberType.elementType, hitems,
        Value.atUtc, Value.itemsAtUtc_eq_map, Bool.false_eq_true, if_false]
      rfl
    | _ => simp [Holds] at h
  | _ =>
    have hscalar : type ≠ .array := by rintro rfl; exact absurd hrefines (by decide)
    rw [fromDatabase, hnull, if_neg (by simp), if_neg hscalar]
    exact scalarFromDatabase_of_holds rfl h hrefines hroute _

end Conversion.Converter

namespace MemberType

theorem mapM_accept {item : MemberType} {items : List Value} (h : ∀ v ∈ items, item.accept v = .ok v) :
    items.mapM item.accept = .ok items := by
  induction items with
  | nil => rfl
  | cons v rest ih =>
    rw [List.mapM_cons, h v (List.mem_cons_self ..), ih fun w hw => h w (List.mem_cons_of_mem v hw)]
    rfl

-- A converted cell is taken by the member as it is.
theorem accept_of_holds {m : MemberType} {v : Value} (h : m.Holds v) : m.accept v.atUtc = .ok v.atUtc := by
  induction m generalizing v with
  | array item ih =>
    cases v with
    | array items =>
      have hitems : (items.map Value.atUtc).mapM item.accept = .ok (items.map Value.atUtc) := by
        refine mapM_accept fun w hw => ?_
        obtain ⟨u, hu, rfl⟩ := List.mem_map.mp hw
        exact ih (h u hu)
      rw [Value.atUtc, Value.itemsAtUtc_eq_map, accept, Value.asArray]
      simp only [bind, Except.bind] at hitems ⊢
      rw [hitems]
      rfl
    | _ => simp [Holds] at h
  | optional inner ih =>
    rw [accept]
    split
    · next hnull => rw [Value.isNull_iff.mp hnull]
    · next hnull =>
      rcases h with h | h
      · obtain rfl := Value.isNull_iff.mp h
        exact absurd rfl hnull
      · exact ih h
  | int32 =>
    cases v with
    | int n =>
      have hword : Text.inWord 32 n.toInt = true := h
      simp [accept, Value.atUtc, Value.asInt, bind, Except.bind, pure, Except.pure, hword]
    | _ => simp [Holds] at h
  | _ => cases v <;> first | rfl | simp [Holds] at h

end MemberType

-- A null is replaced by a value that the member takes.
theorem Field.accept_nullValue {f : Field} (hrefines : Entity.refines f.member.fieldType f.type = true) :
    f.member.accept f.nullValue = .ok f.nullValue := by
  rw [nullValue, nullable]
  generalize f.type = type at hrefines ⊢
  generalize f.member = member at hrefines ⊢
  cases member
  case optional inner => rfl
  case array item =>
    have hrefines : Entity.refines .array type = true := hrefines
    cases type <;> first | rfl | exact absurd hrefines (by decide)
  all_goals cases type <;> first | rfl | exact absurd hrefines (by decide)

end EntitySql
