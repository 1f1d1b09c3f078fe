import EntitySql.Proofs.Conversion.Stored
import EntitySql.Proofs.Run
import EntitySql.Rows.Materialize

-- What a member takes of a conversion, it takes as it is. Only integers change
-- when they are stored, to doubles, and a conversion to doubles leaves none.

namespace EntitySql

namespace Value

mutual

def holdsInt : Value → Bool
  | .int _ => true
  | .array items => itemsHoldInt items
  | _ => false

def itemsHoldInt : List Value → Bool
  | [] => false
  | v :: rest => v.holdsInt || itemsHoldInt rest

end

end Value

namespace MemberType

theorem items_eq_of_mapM {item : MemberType} {items accepted : List Value}
    (hitem : ∀ v ∈ items, ∀ a, item.accept v = .ok a → a = v)
    (h : items.mapM item.accept = .ok accepted) : accepted = items := by
  induction items generalizing accepted with
  | nil =>
    cases h
    rfl
  | cons v rest ih =>
    rw [List.mapM_cons, Result.bind_eq_ok] at h
    obtain ⟨a, ha, h⟩ := h
    obtain ⟨others, hothers, h⟩ := Result.bind_eq_ok.mp h
    cases h
    rw [hitem v (List.mem_cons_self ..) a ha,
      ih (fun w hw => hitem w (List.mem_cons_of_mem v hw)) hothers]

theorem holdsInt_of_mem {items : List Value} (h : Value.itemsHoldInt items = false) :
    ∀ v ∈ items, v.holdsInt = false := by
  induction items with
  | nil => simp
  | cons v rest ih =>
    rw [Value.itemsHoldInt, Bool.or_eq_false_iff] at h
    exact List.forall_mem_cons.mpr ⟨h.1, ih h.2⟩

theorem accept_eq {m : MemberType} {v a : Value}
    (hdouble : m.elementType = .double → v.holdsInt = false) (h : m.accept v = .ok a) : a = v := by
  induction m generalizing v a with
  | array item ih =>
    cases v with
    | array items =>
      obtain ⟨_, hitems, h⟩ := Result.bind_eq_ok.mp h
      cases hitems
      obtain ⟨accepted, haccepted, h⟩ := Result.bind_eq_ok.mp h
      cases h
      rw [items_eq_of_mapM (fun w hw a ha => ih (fun hitem => ?_) ha) haccepted]
      exact holdsInt_of_mem (hdouble hitem) w hw
    | _ => cases h
  | optional inner ih =>
    rw [accept] at h
    split at h
    · next hnull =>
      cases h
      exact (Value.isNull_iff.mp hnull).symm
    · exact ih hdouble h
  | double =>
    cases v with
    | int n => cases hdouble rfl
    | _ =>
      cases h
      try rfl
  | int32 =>
    cases v with
    | int n =>
      simp only [accept, Value.asInt, bind, Except.bind, pure, Except.pure] at h
      split at h
      · cases h
        rfl
      · cases h
    | _ => cases h
  | _ =>
    cases v <;> cases h
    rfl

-- Only doubles and arrays of them have doubles as elements.
theorem fieldType_of_double {m : MemberType} (h : m.elementType = .double) :
    m.fieldType = .double ∨ m.fieldType = .array := by
  induction m with
  | array item => exact .inr rfl
  | optional inner ih => exact ih h
  | double => exact .inl rfl
  | _ => cases h

end MemberType

namespace Conversion

-- Whatever is converted to a double becomes one.
def Fallback.KeepsDoubles (f : Fallback) : Prop :=
  ∀ v element w, v.isNull = false → f.fromDatabase v .double element = .ok w → ∃ x, w = .double x

theorem Fallback.keepsDoubles_generic : generic.KeepsDoubles := by
  intro v element w hnull h
  have hscalar : scalarFromDatabase v .double = .ok w := by
    cases v <;> first | exact h | cases hnull
  rw [scalarFromDatabase] at hscalar
  split at hscalar
  · next x _ =>
    cases hscalar
    exact ⟨x, rfl⟩
  · cases hscalar

namespace Converter

variable {c : Converter} {ofLiteral : Text → Result Value}

theorem holdsInt_scalarFromDatabase (hc : c.fallback.KeepsDoubles) {v w : Value}
    (hnull : v.isNull = false) {name : Text} {element : FieldType}
    (h : c.scalarFromDatabase v name .double element = .ok w) : w.holdsInt = false := by
  have hroute : Route.classify .double name = .array ∨ Route.classify .double name = .generic := by
    simp only [Route.classify]
    split
    · exact .inl rfl
    · exact .inr rfl
  rw [scalarFromDatabase] at h
  rcases hroute with hroute | hroute
  · rw [hroute] at h
    cases h
  · rw [hroute] at h
    obtain ⟨x, rfl⟩ := hc v element w hnull h
    rfl

mutual

theorem holdsInt_arrayItem (hc : c.fallback.KeepsDoubles) {v w : Value}
    (h : c.arrayItem .double ofLiteral v = .ok w) : w.holdsInt = false := by
  cases v with
  | null =>
    cases h
    rfl
  | array inner =>
    cases hinner : c.arrayItems .double ofLiteral inner with
    | error e =>
      rw [arrayItem, hinner] at h
      cases h
    | ok items =>
      rw [arrayItem, hinner] at h
      cases h
      exact holdsInt_arrayItems hc hinner
  | _ =>
    have hscalar : FieldType.double ≠ .array := by decide
    simp only [arrayItem, if_neg hscalar] at h
    exact holdsInt_scalarFromDatabase hc rfl h
termination_by sizeOf v

theorem holdsInt_arrayItems (hc : c.fallback.KeepsDoubles) {items converted : List Value}
    (h : c.arrayItems .double ofLiteral items = .ok converted) :
    Value.itemsHoldInt converted = false := by
  cases items with
  | nil =>
    cases h
    rfl
  | cons item rest =>
    rw [arrayItems, Result.bind_eq_ok] at h
    obtain ⟨first, hfirst, h⟩ := h
    obtain ⟨others, hothers, h⟩ := Result.bind_eq_ok.mp h
    cases h
    rw [Value.itemsHoldInt, holdsInt_arrayItem hc hfirst, holdsInt_arrayItems hc hothers]
    rfl
termination_by sizeOf items

end

theorem holdsInt_toArray (hc : c.fallback.KeepsDoubles) {v w : Value}
    (h : c.toArray v .double = .ok w) : w.holdsInt = false := by
  have hmap {items : List Value} {ofLiteral : Text → Result Value}
      (h : (c.arrayItems .double ofLiteral items).map .array = .ok w) : w.holdsInt = false := by
    cases hitems : c.arrayItems .double ofLiteral items with
    | error e =>
      rw [hitems] at h
      cases h
    | ok converted =>
      rw [hitems] at h
      cases h
      exact holdsInt_arrayItems hc hitems
  cases v with
  | array items => exact hmap h
  | string t =>
    obtain ⟨items, -, h⟩ := Result.bind_eq_ok.mp h
    obtain ⟨converted, hconverted, h⟩ := Result.bind_eq_ok.mp h
    cases h
    exact holdsInt_arrayItems hc hconverted
  | _ => cases h

end Converter

end Conversion

namespace Row

variable {converter : Conversion.Converter} {r : Row} {b : ColumnBinding} {v : Value}

theorem holdsInt_readCell (hconverter : converter.fallback.KeepsDoubles)
    (hrefines : Entity.refines b.field.member.fieldType b.field.type = true)
    (hdouble : b.field.member.elementType = .double) (h : r.readCell converter b = .ok v) :
    v.holdsInt = false := by
  have htype : b.field.type = .double ∨ b.field.type = .array := by
    rcases MemberType.fieldType_of_double hdouble with hmember | hmember <;>
      rw [hmember] at hrefines <;>
      cases htype : b.field.type <;> simp_all [Entity.refines]
  rw [readCell] at h
  split at h
  · cases h
    rw [Field.nullValue]
    split
    · rfl
    · rcases htype with htype | htype <;> rw [htype] <;> rfl
  · next hnull =>
    rw [Conversion.Converter.fromDatabase, if_neg hnull, Field.element, hdouble] at h
    have hnull : (r.cell b.ordinal).isNull = false := by simpa using hnull
    rcases htype with htype | htype
    · rw [htype, if_neg (by decide)] at h
      exact Conversion.Converter.holdsInt_scalarFromDatabase hconverter hnull h
    · rw [htype, if_pos rfl] at h
      exact Conversion.Converter.holdsInt_toArray hconverter h

-- A value that has been read for a field is stored as it is.
theorem accept_eq_of_readCell (hconverter : converter.fallback.KeepsDoubles)
    (hrefines : Entity.refines b.field.member.fieldType b.field.type = true)
    (h : r.readCell converter b = .ok v) {a : Value} (ha : b.field.member.accept v = .ok a) :
    a = v :=
  MemberType.accept_eq (fun hdouble => holdsInt_readCell hconverter hrefines hdouble h) ha

end Row

end EntitySql
