import EntitySql.Schema

-- What a lookup in a schema finds is declared in it, so its names are among
-- the identifiers of its entity and of the registry.

namespace EntitySql

namespace Entity

variable {e : Entity} {f : Field} {name : Text}

theorem mem_of_property? (h : e.property? name = some f) : f ∈ e.fields := by
  rw [property?, Option.or_eq_some_iff] at h
  rcases h with h | ⟨-, h⟩
  · exact List.mem_of_find?_eq_some h
  · exact List.mem_of_find?_eq_some h

theorem mem_of_primaryKey? (h : e.primaryKey? = some f) : f ∈ e.fields := by
  rw [primaryKey?, Option.or_eq_some_iff] at h
  rcases h with h | ⟨-, h⟩
  · exact List.mem_of_find?_eq_some h
  · exact List.mem_of_find?_eq_some h

theorem isSome_column? {e : Entity} {name : Text} :
    (e.column? name).isSome ↔ ∃ f ∈ e.fields, Text.sameFolded f.column name = true := by
  simp [column?]

end Entity

theorem Registry.mem_of_find? {registry : Registry} {type : EntityType} {e : Entity}
    (h : registry.find? type = some e) : e ∈ registry.entities := List.mem_of_find?_eq_some h

theorem Registry.mem_of_get {registry : Registry} {type : EntityType} {e : Entity}
    (h : registry.get type = .ok e) : e ∈ registry.entities := by
  rw [get] at h
  split at h
  · next found hfind =>
    cases h
    exact mem_of_find? hfind
  · cases h

-- The names by which an entity is written into statements.

def Relationship.names : Relationship → List Text
  | .reference foreignKey => [foreignKey]
  | .collection foreignKey => [foreignKey]
  | .manyToMany junction parentColumn targetColumn => [junction, parentColumn, targetColumn]

def Entity.identifiers (e : Entity) : List Text :=
  e.table :: e.fields.map Field.column ++ e.navigations.flatMap fun n => n.relationship.names

def Registry.identifiers (r : Registry) : List Text := r.entities.flatMap Entity.identifiers

namespace Entity

variable {e : Entity}

theorem table_mem_identifiers (e : Entity) : e.table ∈ e.identifiers := by simp [identifiers]

theorem column_mem_identifiers {f : Field} (h : f ∈ e.fields) : f.column ∈ e.identifiers := by
  have hcolumn : f.column ∈ e.fields.map Field.column := List.mem_map_of_mem h
  simp only [identifiers, List.mem_append, List.mem_cons]
  exact .inl (.inr hcolumn)

theorem name_mem_identifiers {n : Navigation} (h : n ∈ e.navigations) {name : Text}
    (hname : name ∈ n.relationship.names) : name ∈ e.identifiers := by
  simp only [identifiers, List.mem_append, List.mem_flatMap]
  exact .inr ⟨n, h, hname⟩

end Entity

theorem Registry.mem_identifiers {r : Registry} {e : Entity} (he : e ∈ r.entities) {name : Text}
    (hname : name ∈ e.identifiers) : name ∈ r.identifiers := List.mem_flatMap.mpr ⟨e, he, hname⟩

end EntitySql
