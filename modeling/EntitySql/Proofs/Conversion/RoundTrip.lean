import EntitySql.Proofs.Conversion.Stored
import EntitySql.Proofs.Text.Plain

-- Values written to the database and read back. Writing goes by the field type
-- alone, reading by the field type and the type name of the column; a value of
-- the field comes back as it was, but for timestamps, which are turned to UTC.

namespace EntitySql

theorem Timestamp.toUtc_toUtc (t : Timestamp) : t.toUtc.toUtc = t.toUtc := by
  simp [toUtc, ofUtc, utcMicros]

-- The type of the members that scalar fields of the type are declared with: bit
-- strings are bytes, and geometric values are text.
def FieldType.scalarMember? : FieldType → Option MemberType
  | .bool => some .bool
  | .int32 => some .int32
  | .int64 => some .int64
  | .double => some .double
  | .string => some .string
  | .uuid => some .uuid
  | .timestamp => some .timestamp
  | .bytes => some .bytes
  | .json => some .json
  | .array => none
  | .bitString => some .bytes
  | .inet => some .inet
  | .geometric => some .string

-- The values of a scalar field: null, and what its member holds.
inductive FieldType.HoldsScalar (type : FieldType) : Value → Prop
  | null : HoldsScalar type .null
  | member {m : MemberType} {v : Value} (hm : type.scalarMember? = some m) (h : m.Holds v) :
    HoldsScalar type v

-- Arrays of any depth, also of different depths beside each other.
inductive FieldType.HoldsItem (element : FieldType) : Value → Prop
  | leaf {v : Value} (h : element.HoldsScalar v) : HoldsItem element v
  | array {items : List Value} (h : ∀ v ∈ items, HoldsItem element v) :
    HoldsItem element (.array items)

inductive FieldType.Holds (type element : FieldType) : Value → Prop
  | scalar {v : Value} (h : type.HoldsScalar v) : Holds type element v
  | array {items : List Value} (htype : type = .array) (h : ∀ v ∈ items, element.HoldsItem v) :
    Holds type element (.array items)

theorem FieldType.spec_of_scalarMember? {type : FieldType} {m : MemberType}
    (h : type.scalarMember? = some m) :
    type ≠ .array ∧ m.isScalar = true ∧ Entity.refines m.fieldType type = true := by
  cases type <;> cases h <;> exact ⟨by decide, rfl, by decide⟩

namespace Conversion

namespace BitString

theorem text_cons (b : UInt8) (rest : List UInt8) : text (b :: rest) = byteText b ++ text rest :=
  List.flatMap_cons

theorem length_byteText (b : UInt8) : (byteText b).length = 8 := by
  simp [byteText]

theorem ofNat_byteOf_byteText (b : UInt8) : UInt8.ofNat (byteOf (byteText b)) = b := by
  have hall : ∀ b : UInt8, UInt8.ofNat (byteOf (byteText b)) = b :=
    forall_byte (by decide +kernel)
  exact hall b

theorem isBit_of_mem_text {bytes : List UInt8} {c : UInt8} (h : c ∈ text bytes) :
    isBit c = true := by
  obtain ⟨b, -, hc⟩ := List.mem_flatMap.mp h
  obtain ⟨i, -, rfl⟩ := List.mem_map.mp hc
  unfold bitText
  split <;> rfl

theorem length_text (bytes : List UInt8) : (text bytes).length = 8 * bytes.length := by
  induction bytes with
  | nil => rfl
  | cons b rest ih =>
    rw [text_cons, List.length_append, length_byteText, ih, List.length_cons]
    omega

-- One byte at a time; fuel for more digits does no harm.
theorem chunks_text {fuel : Nat} {bytes : List UInt8} (h : bytes.length ≤ fuel) :
    chunks fuel (text bytes) = bytes := by
  induction bytes generalizing fuel with
  | nil => cases fuel <;> rfl
  | cons b rest ih =>
    cases fuel with
    | zero => simp at h
    | succ fuel =>
      have hlength := length_byteText b
      have hne : (byteText b ++ text rest).isEmpty = false := by
        cases hbits : byteText b with
        | nil => simp [hbits] at hlength
        | cons c bits => rfl
      have hrest : rest.length ≤ fuel := by simpa using h
      rw [text_cons, chunks, hne, List.take_left' hlength, List.drop_left' hlength,
        ofNat_byteOf_byteText, ih hrest]
      rfl

theorem ofText_text (bytes : List UInt8) : ofText (text bytes) = .ok bytes := by
  have hbits : (text bytes).all isBit = true := List.all_eq_true.mpr fun c => isBit_of_mem_text
  have hfuel : bytes.length ≤ (text bytes).length := by
    rw [length_text]
    omega
  rw [ofText, if_pos hbits, chunks_text hfuel]

end BitString

namespace Route

-- The type name may belong to a column of the field type: arrays are columns of
-- array fields, and addresses are no text.
structure Suits (name : Text) (type : FieldType) : Prop where
  scalar : type ≠ .array → isArray (Text.lower name) = false
  textual : type = .string → networkTypes.elem (Text.lower name) = false

-- The items of an array are read as if their column had no type name.
theorem suits_nil (type : FieldType) : Suits [] type where
  scalar _ := by decide
  textual _ := by decide

theorem classify_of_suits {type : FieldType} {name : Text} (hstring : type ≠ .string)
    (hbytes : type ≠ .bytes) (h : Suits name type) : classify type name = classify type [] := by
  have hscalar := h.scalar
  cases type <;> simp_all [classify] <;> decide

theorem classify_string {name : Text} (h : Suits name .string) :
    classify .string name = .json ∨ classify .string name = .geometric ∨
      classify .string name = .generic := by
  have hnetwork := h.textual rfl
  unfold classify
  dsimp only
  rw [hnetwork]
  split
  · exact .inl rfl
  · split
    · rename_i hfalse
      cases hfalse
    · split
      · exact .inr (.inl rfl)
      · exact .inr (.inr rfl)

theorem classify_bytes (name : Text) :
    classify .bytes name = .bitString ∨ classify .bytes name = .generic := by
  unfold classify
  dsimp only
  split
  · exact .inl rfl
  · exact .inr rfl

end Route

namespace Converter

variable {m : MemberType} {type element : FieldType} {v : Value} {name : Text}

-- A value that needs no conversion is read in whatever column it stands.
theorem scalarFromDatabase_of_suits (element : FieldType) (hm : type.scalarMember? = some m)
    (h : m.Holds v) (hname : Route.Suits name type) :
    ({} : Converter).scalarFromDatabase v name type element = .ok v.atUtc := by
  obtain ⟨-, hscalar, hrefines⟩ := FieldType.spec_of_scalarMember? hm
  by_cases hstring : type = .string
  · subst hstring
    cases hm
    cases v with
    | string t =>
      rw [scalarFromDatabase]
      rcases Route.classify_string hname with hroute | hroute | hroute <;> rw [hroute] <;> rfl
    | _ => cases h
  by_cases hbytes : type = .bytes
  · subst hbytes
    cases hm
    cases v with
    | bytes b =>
      rw [scalarFromDatabase]
      rcases Route.classify_bytes name with hroute | hroute <;> rw [hroute] <;> rfl
    | _ => cases h
  exact scalarFromDatabase_of_holds hscalar h hrefines
    (Route.classify_of_suits hstring hbytes hname) element

-- Only the values of scalar fields are converted one by one.
def isScalarValue : Value → Bool
  | .null => false
  | .array _ => false
  | _ => true

theorem isScalarValue_of_holds (hm : type.scalarMember? = some m) (h : m.Holds v) :
    isScalarValue v = true := by
  cases type <;> cases hm <;> cases v <;> first | rfl | cases h

theorem scalarToDatabase_of_ne (hm : type.scalarMember? = some m) (h : m.Holds v)
    (htimestamp : type ≠ .timestamp) (hbits : type ≠ .bitString) :
    ({} : Converter).scalarToDatabase v type = .ok v := by
  cases type <;> cases hm
  case timestamp => exact absurd rfl htimestamp
  case bitString => exact absurd rfl hbits
  all_goals cases v <;> first | rfl | cases h

-- One value of a scalar field.
theorem exists_scalarToDatabase (element : FieldType) (hm : type.scalarMember? = some m)
    (h : m.Holds v) (hname : Route.Suits name type) :
    ∃ stored, ({} : Converter).scalarToDatabase v type = .ok stored ∧
      isScalarValue stored = true ∧
      ({} : Converter).scalarFromDatabase stored name type element = .ok v.atUtc := by
  by_cases htimestamp : type = .timestamp
  · subst htimestamp
    cases hm
    cases v with
    | timestamp t =>
      have hholds : MemberType.timestamp.Holds (.timestamp t.toUtc) := trivial
      have hread := scalarFromDatabase_of_suits element rfl hholds hname
      rw [Value.atUtc, t.toUtc_toUtc] at hread
      exact ⟨.timestamp t.toUtc, rfl, rfl, hread⟩
    | _ => cases h
  by_cases hbits : type = .bitString
  · subst hbits
    cases hm
    cases v with
    | bytes b =>
      refine ⟨.string (BitString.text b), rfl, rfl, ?_⟩
      have hroute : Route.classify .bitString name = .bitString := rfl
      rw [scalarFromDatabase, hroute]
      dsimp only
      rw [toBitString, BitString.ofText_text]
      rfl
    | _ => cases h
  exact ⟨v, scalarToDatabase_of_ne hm h htimestamp hbits, isScalarValue_of_holds hm h,
    scalarFromDatabase_of_suits element hm h hname⟩

-- Items.

-- The items of an array are written one by one.
def itemToDatabase (c : Converter) (element : FieldType) : Value → Result Value
  | .array inner => c.toDatabase .array element (.array inner)
  | item => c.toDatabase element element item

theorem toDatabaseItems_cons (c : Converter) (item : Value) (rest : List Value) :
    c.toDatabaseItems element (item :: rest) = do
      let item ← c.itemToDatabase element item
      let items ← c.toDatabaseItems element rest
      return item :: items := by
  cases item <;> rfl

-- What is written for the item is read as the item.
def Restored (element : FieldType) (ofLiteral : Text → Result Value) (item : Value) : Prop :=
  ∃ stored, ({} : Converter).itemToDatabase element item = .ok stored ∧
    ({} : Converter).arrayItem element ofLiteral stored = .ok item.atUtc

variable {ofLiteral : Text → Result Value}

theorem restored_items {items : List Value} (h : ∀ v ∈ items, Restored element ofLiteral v) :
    ∃ stored, ({} : Converter).toDatabaseItems element items = .ok stored ∧
      ({} : Converter).arrayItems element ofLiteral stored = .ok (Value.itemsAtUtc items) := by
  induction items with
  | nil => exact ⟨[], rfl, rfl⟩
  | cons item rest ih =>
    obtain ⟨first, hwrite, hread⟩ := h item (List.mem_cons_self ..)
    obtain ⟨others, hwrites, hreads⟩ := ih fun v hv => h v (List.mem_cons_of_mem item hv)
    refine ⟨first :: others, ?_, ?_⟩
    · rw [toDatabaseItems_cons, hwrite, hwrites]
      rfl
    · rw [arrayItems, hread, hreads]
      rfl

theorem toDatabase_of_isScalarValue (htype : type ≠ .array) (hv : isScalarValue v = true) :
    ({} : Converter).toDatabase type element v = ({} : Converter).scalarToDatabase v type := by
  cases v with
  | null => cases hv
  | array items => cases hv
  | _ => exact if_neg htype

theorem arrayItem_of_isScalarValue (helement : element ≠ .array) (hv : isScalarValue v = true) :
    ({} : Converter).arrayItem element ofLiteral v =
      ({} : Converter).scalarFromDatabase v [] element element := by
  cases v with
  | null => cases hv
  | array items => cases hv
  | _ => exact if_neg helement

theorem restored_leaf (h : element.HoldsScalar v) : Restored element ofLiteral v := by
  cases h with
  | null => exact ⟨.null, rfl, rfl⟩
  | @member m _ hm h =>
    obtain ⟨helement, -, -⟩ := FieldType.spec_of_scalarMember? hm
    obtain ⟨stored, hwrite, hstored, hread⟩ :=
      exists_scalarToDatabase element hm h (Route.suits_nil element)
    have hv := isScalarValue_of_holds hm h
    have hitem : ({} : Converter).itemToDatabase element v =
        ({} : Converter).toDatabase element element v := by
      cases v <;> first | rfl | cases hv
    refine ⟨stored, ?_, ?_⟩
    · rw [hitem, toDatabase_of_isScalarValue helement hv, hwrite]
    · rw [arrayItem_of_isScalarValue helement hstored, hread]

theorem restored_item (h : element.HoldsItem v) : Restored element ofLiteral v := by
  induction h with
  | leaf h => exact restored_leaf h
  | @array items _ ih =>
    obtain ⟨stored, hwrite, hread⟩ := restored_items ih
    refine ⟨.array stored, ?_, ?_⟩
    · rw [itemToDatabase, toDatabase, if_pos rfl, hwrite]
      rfl
    · rw [arrayItem, hread]
      rfl

-- A value of a field is written, and read back from any column that suits the
-- field it is the same value at UTC.
theorem fromDatabase_toDatabase (h : type.Holds element v) (hname : Route.Suits name type) :
    ∃ stored, ({} : Converter).toDatabase type element v = .ok stored ∧
      ({} : Converter).fromDatabase stored name type element = .ok v.atUtc := by
  cases h with
  | scalar h =>
    cases h with
    | null => exact ⟨.null, rfl, rfl⟩
    | @member m _ hm h =>
      obtain ⟨htype, -, -⟩ := FieldType.spec_of_scalarMember? hm
      obtain ⟨stored, hwrite, hstored, hread⟩ := exists_scalarToDatabase element hm h hname
      have hnull : stored.isNull = false := by
        cases stored <;> first | rfl | cases hstored
      refine ⟨stored, ?_, ?_⟩
      · rw [toDatabase_of_isScalarValue htype (isScalarValue_of_holds hm h), hwrite]
      · rw [fromDatabase, hnull, if_neg (by decide), if_neg htype, hread]
  | @array items htype h =>
    subst htype
    let ofLiteral := fun t : Text => ({} : Converter).nestedLiteral (t.length + 1) t
    have hitems : ∀ v ∈ items, Restored element ofLiteral v := fun v hv => restored_item (h v hv)
    obtain ⟨stored, hwrite, hread⟩ := restored_items hitems
    refine ⟨.array stored, ?_, ?_⟩
    · rw [toDatabase, if_pos rfl, hwrite]
      rfl
    · rw [fromDatabase, if_neg (by simp [Value.isNull]), if_pos rfl, toArray]
      rw [hread]
      rfl

-- Arrays of different depths, in which a time east of Greenwich stands.
def meetings : Value := .array [.array [.timestamp ⟨0, true, 120⟩, .null], .null, .array []]

theorem holds_meetings : FieldType.Holds .array .timestamp meetings := by
  refine .array rfl fun v hv => ?_
  simp only [List.mem_cons, List.not_mem_nil, or_false] at hv
  rcases hv with rfl | rfl | rfl
  · refine .array fun v hv => ?_
    simp only [List.mem_cons, List.not_mem_nil, or_false] at hv
    rcases hv with rfl | rfl
    · exact .leaf (.member (m := .timestamp) rfl trivial)
    · exact .leaf .null
  · exact .leaf .null
  · exact .array (by simp)

theorem fromDatabase_toDatabase_meetings :
    FieldType.Holds .array .timestamp meetings ∧ Route.Suits "_timestamptz" .array ∧
      ∃ stored, ({} : Converter).toDatabase .array .timestamp meetings = .ok stored ∧
        ({} : Converter).fromDatabase stored "_timestamptz" .array .timestamp =
          .ok (.array [.array [.timestamp (.ofUtc (-7200000000)), .null], .null, .array []]) := by
  have hname : Route.Suits "_timestamptz" .array := ⟨fun h => absurd rfl h, nofun⟩
  exact ⟨holds_meetings, hname, fromDatabase_toDatabase holds_meetings hname⟩

end Converter

end Conversion

end EntitySql
