import EntitySql.Proofs.Conversion.Accepted
import EntitySql.Proofs.Schema.Lookup
import EntitySql.Proofs.Store
import EntitySql.Rows.Materialize
import Mathlib.Data.List.Nodup

-- The values of an instance that has been read from a row: every field whose column
-- the row has is filled with what its cell is converted to, and all others stay as they
-- are in a new instance.

namespace EntitySql

variable {e : Entity} {columns : List Column} {aliasName : Option Text}

namespace EntityBinding

-- The name under which the column of a field is looked for.
def columnName (aliasName : Option Text) (f : Field) : Text :=
  match aliasName with
  | none => f.column
  | some a => Include.Plan.columnAlias a f.column

theorem bindField_eq (columns : List Column) (aliasName : Option Text) (f : Field) :
    bindField columns aliasName f = (ResultSet.ordinal? columns (columnName aliasName f)).bind fun i =>
      columns[i]?.map fun c => ⟨f, i, c.typeName⟩ := by
  simp only [Option.map_eq_bind]
  cases aliasName <;> rfl

theorem field_of_bindField {f : Field} {c : ColumnBinding}
    (h : bindField columns aliasName f = some c) : c.field = f := by
  simp only [bindField, Option.bind_eq_bind, Option.bind_eq_some_iff] at h
  obtain ⟨ordinal, -, column, -, h⟩ := h
  cases h
  rfl

theorem mem_bind_iff {c : ColumnBinding} : c ∈ (bind columns e aliasName).columns ↔
    c.field ∈ e.fields ∧ bindField columns aliasName c.field = some c := by
  rw [bind, List.mem_filterMap]
  constructor
  · rintro ⟨f, hf, h⟩
    obtain rfl := field_of_bindField h
    exact ⟨hf, h⟩
  · rintro ⟨hf, h⟩
    exact ⟨_, hf, h⟩

end EntityBinding

namespace Instance

-- The fields that an instance has a place for.
def Mapped (i : Instance) (f : Field) : Prop := f.property ∈ i.values.map (·.1)

theorem mapped_new {f : Field} (h : f ∈ e.fields) : (new e).Mapped f := by
  simp only [Mapped, new, List.map_map]
  exact List.mem_map.mpr ⟨f, h, rfl⟩

variable {i j : Instance} {f : Field} {v : Value}

theorem mapped_set (h : i.set f v = .ok j) (g : Field) : j.Mapped g ↔ i.Mapped g := by
  obtain ⟨a, -, h⟩ := Result.bind_eq_ok.mp h
  cases h
  simp only [Mapped, keys_replace]

theorem accept_of_set (hmapped : i.Mapped f) (h : i.set f v = .ok j) :
    f.member.accept v = .ok (j.value f) := by
  obtain ⟨a, ha, h⟩ := Result.bind_eq_ok.mp h
  cases h
  obtain ⟨old, hold⟩ : ∃ old, i.values.lookup f.property = some old := by
    obtain ⟨entry, hmem, hkey⟩ := List.mem_map.mp hmapped
    cases hl : i.values.lookup f.property with
    | some old => exact ⟨old, rfl⟩
    | none => exact absurd (List.lookup_eq_none_iff.mp hl entry hmem) (by simp [hkey])
  rw [ha, value, lookup_replace_self, hold]
  rfl

theorem value_of_set {g : Field} (hne : g.property ≠ f.property) (h : i.set f v = .ok j) :
    j.value g = i.value g := by
  obtain ⟨a, -, h⟩ := Result.bind_eq_ok.mp h
  cases h
  rw [value, lookup_replace_other hne, value]

end Instance

namespace Row

variable {converter : Conversion.Converter} {row : Row} {i j : Instance} {c : ColumnBinding}

theorem set_of_readInto (h : row.readInto converter i c = .ok j) :
    ∃ v, row.readCell converter c = .ok v ∧ i.set c.field v = .ok j := by
  obtain ⟨v, hv, h⟩ := Result.bind_eq_ok.mp h
  exact ⟨v, ok_of_mapError hv, ok_of_mapError h⟩

theorem value_of_foldlM_readInto {bindings : List ColumnBinding} {f : Field}
    (hf : ∀ b ∈ bindings, f.property ≠ b.field.property)
    (h : bindings.foldlM (row.readInto converter) i = .ok j) : j.value f = i.value f := by
  induction bindings generalizing i with
  | nil =>
    cases h
    rfl
  | cons b rest ih =>
    rw [List.foldlM_cons] at h
    obtain ⟨k, hk, h⟩ := Result.bind_eq_ok.mp h
    obtain ⟨v, -, hset⟩ := set_of_readInto hk
    rw [ih (fun d hd => hf d (List.mem_cons_of_mem b hd)) h,
      Instance.value_of_set (hf b (List.mem_cons_self ..)) hset]

-- No other column has the property of this one.
theorem accept_of_foldlM_readInto {bindings : List ColumnBinding} (hmapped : i.Mapped c.field)
    (hown : ∀ b ∈ bindings, b.field.property = c.field.property → b = c)
    (h : bindings.foldlM (row.readInto converter) i = .ok j) (hc : c ∈ bindings) :
    ∃ v, row.readCell converter c = .ok v ∧ c.field.member.accept v = .ok (j.value c.field) := by
  induction bindings generalizing i with
  | nil => cases hc
  | cons b rest ih =>
    rw [List.foldlM_cons] at h
    obtain ⟨k, hk, hrest⟩ := Result.bind_eq_ok.mp h
    obtain ⟨v, hv, hset⟩ := set_of_readInto hk
    have hown_rest : ∀ d ∈ rest, d.field.property = c.field.property → d = c :=
      fun d hd => hown d (List.mem_cons_of_mem b hd)
    by_cases hlater : c ∈ rest
    · exact ih ((Instance.mapped_set hset c.field).mpr hmapped) hown_rest hrest hlater
    · obtain rfl : c = b := (List.mem_cons.mp hc).resolve_right hlater
      have hother : ∀ d ∈ rest, c.field.property ≠ d.field.property :=
        fun d hd heq => hlater (hown_rest d hd heq.symm ▸ hd)
      refine ⟨v, hv, ?_⟩
      rw [value_of_foldlM_readInto hother hrest]
      exact Instance.accept_of_set hmapped hset

end Row

-- A field that alone has its property.
structure Entity.Owns (e : Entity) (f : Field) : Prop where
  mem : f ∈ e.fields
  unique : ∀ g ∈ e.fields, g.property = f.property → g = f

theorem Entity.owns_of_nodup (h : (e.fields.map Field.property).Nodup) {f : Field}
    (hf : f ∈ e.fields) : e.Owns f :=
  ⟨hf, fun _ hg heq => List.inj_on_of_nodup_map h hg hf heq⟩

namespace Instance

-- What the cell of a column is converted to for a field.
inductive Converts (converter : Conversion.Converter) (f : Field) (typeName : Text) (cell : Value) :
    Value → Prop where
  | null (hnull : cell.isNull = true) : Converts converter f typeName cell f.nullValue
  | cell {v : Value} (hnull : cell.isNull = false)
      (hread : converter.fromDatabase cell typeName f.type f.element = .ok v) :
      Converts converter f typeName cell v

-- An instance with the cells of a row in its fields, as their members take them.
structure FilledFrom (i : Instance) (converter : Conversion.Converter) (columns : List Column)
    (row : Row) (e : Entity) (aliasName : Option Text) : Prop where
  type : i.type = e.type
  bound : ∀ f, e.Owns f → ∀ ordinal,
    ResultSet.ordinal? columns (EntityBinding.columnName aliasName f) = some ordinal →
      ∃ column v, columns[ordinal]? = some column ∧
        Converts converter f column.typeName (row.cell ordinal) v ∧
        f.member.accept v = .ok (i.value f)
  unbound : ∀ f, e.Owns f →
    ResultSet.ordinal? columns (EntityBinding.columnName aliasName f) = none →
      i.value f = f.member.initial

theorem FilledFrom.of_values {converter : Conversion.Converter} {row : Row} {i j : Instance}
    (h : j.FilledFrom converter columns row e aliasName) (htype : i.type = j.type)
    (hvalues : i.values = j.values) : i.FilledFrom converter columns row e aliasName := by
  have hvalue (f : Field) : i.value f = j.value f := by rw [value, value, hvalues]
  refine ⟨htype.trans h.type, fun f hown ordinal hordinal => ?_, fun f hown hordinal => ?_⟩
  · rw [hvalue f]
    exact h.bound f hown ordinal hordinal
  · rw [hvalue f]
    exact h.unbound f hown hordinal

theorem value_new {f : Field} (h : e.Owns f) : (new e).value f = f.member.initial := by
  have hlookup : ∀ fields : List Field, (∀ g ∈ fields, g.property = f.property → g = f) →
      f ∈ fields → (fields.map fun f => (f.property, f.member.initial)).lookup f.property =
        some f.member.initial := by
    intro fields hunique hf
    induction fields with
    | nil => cases hf
    | cons g rest ih =>
      obtain ⟨hg, hrest⟩ := List.forall_mem_cons.mp hunique
      rw [List.map_cons]
      by_cases heq : g.property = f.property
      · rw [hg heq, List.lookup_cons_self]
      · have hother : (f.property == g.property) = false := by simpa using Ne.symm heq
        rw [List.lookup_cons, hother]
        refine ih hrest ((List.mem_cons.mp hf).resolve_left ?_)
        rintro rfl
        exact heq rfl
  rw [value, new, hlookup e.fields h.unique h.mem, Option.getD_some]

end Instance

namespace Row

variable {converter : Conversion.Converter} {row : Row} {i j : Instance} {c : ColumnBinding}

theorem converts_of_readCell {v : Value} (h : row.readCell converter c = .ok v) :
    Instance.Converts converter c.field c.databaseType (row.cell c.ordinal) v := by
  simp only [readCell] at h
  split at h
  · next hnull =>
    cases h
    exact .null hnull
  · next hnull => exact .cell (Bool.eq_false_iff.mpr hnull) h

theorem accept_of_readInstance (h : row.readInstance converter (.bind columns e aliasName) = .ok j)
    (hown : e.Owns c.field) (hc : c ∈ (EntityBinding.bind columns e aliasName).columns) :
    ∃ v, row.readCell converter c = .ok v ∧ c.field.member.accept v = .ok (j.value c.field) := by
  refine accept_of_foldlM_readInto (Instance.mapped_new hown.mem) (fun b hb heq => ?_) h hc
  obtain ⟨hb, hbind⟩ := EntityBinding.mem_bind_iff.mp hb
  rw [hown.unique _ hb heq, (EntityBinding.mem_bind_iff.mp hc).2] at hbind
  exact (Option.some.inj hbind).symm

theorem filledFrom_of_readInstance
    (h : row.readInstance converter (.bind columns e aliasName) = .ok j) :
    j.FilledFrom converter columns row e aliasName where
  type := (links_readInstance h).1
  bound f hown ordinal hordinal := by
    have hlt : ordinal < columns.length := List.findIdx?_eq_some_iff_getElem.mp hordinal |>.1
    have hcolumn := List.getElem?_eq_getElem hlt
    have hbind : EntityBinding.bindField columns aliasName f =
        some ⟨f, ordinal, columns[ordinal].typeName⟩ := by
      rw [EntityBinding.bindField_eq, hordinal, Option.bind_some, hcolumn, Option.map_some]
    obtain ⟨v, hv, haccept⟩ := accept_of_readInstance h
      (c := ⟨f, ordinal, columns[ordinal].typeName⟩) hown (EntityBinding.mem_bind_iff.mpr ⟨hown.mem, hbind⟩)
    exact ⟨_, v, hcolumn, converts_of_readCell hv, haccept⟩
  unbound f hown hordinal := by
    rw [← Instance.value_new hown]
    refine value_of_foldlM_readInto (fun b hb heq => ?_) h
    obtain ⟨hb, hbind⟩ := EntityBinding.mem_bind_iff.mp hb
    rw [hown.unique _ hb heq.symm, EntityBinding.bindField_eq, hordinal] at hbind
    cases hbind

-- The value that an entity has for a bound field is the one of its cell.
theorem readCell_of_readInstance (hconverter : converter.fallback.KeepsDoubles)
    (hproperties : (e.fields.map Field.property).Nodup)
    (hrefines : ∀ f ∈ e.fields, Entity.refines f.member.fieldType f.type = true)
    (h : row.readInstance converter (.bind columns e aliasName) = .ok j)
    (hc : c ∈ (EntityBinding.bind columns e aliasName).columns) :
    row.readCell converter c = .ok (j.value c.field) := by
  have hf := (EntityBinding.mem_bind_iff.mp hc).1
  obtain ⟨v, hv, haccept⟩ := accept_of_readInstance h (Entity.owns_of_nodup hproperties hf) hc
  rw [accept_eq_of_readCell hconverter (hrefines _ hf) hv haccept]
  exact hv

end Row

end EntitySql
