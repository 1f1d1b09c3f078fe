import EntitySql.Include.Join
import EntitySql.Proofs.Include.Sound
import EntitySql.Proofs.Text.Numeral

-- The names in the texts of a plan: those of the root and of registered
-- entities, and aliases. What holds of these holds of every name that is quoted.
-- The planner's own aliases can always be quoted, so that the texts of a plan fail
-- on the names of the entities only.

namespace EntitySql.Include

namespace Node

theorem aliasOf_injective {a b : Nat} (h : aliasOf a = aliasOf b) : a = b :=
  Text.ofNat_injective (List.append_cancel_left h)

theorem rootAlias_eq : rootAlias = aliasOf 0 := by decide

theorem parentAlias_eq (n : Node) : n.parentAlias = aliasOf (n.parent.getD 0) := by
  cases h : n.parent <;> simp [parentAlias, rootAlias_eq, h]

theorem junctionAlias_ne (n : Node) (number : Nat) : n.junctionAlias ≠ aliasOf number := by
  intro h
  have hhead := congrArg List.head? h
  have hj : (Text.ofString "jt_").head? = some 0x6A := by decide
  have ht : (Text.ofString "t").head? = some 0x74 := by decide
  simp [junctionAlias, aliasOf, List.head?_append, hj, ht] at hhead

end Node

-- The names of a hop: those of the entity that it leads to, and of its keys.
def hopNames (n : Navigation) (target : Entity) : List Text :=
  target.table :: target.fields.map Field.column ++ n.relationship.names

section Hop

variable (n : Navigation) {source target : Entity} {registry : Registry}

theorem table_mem_hopNames (target : Entity) : target.table ∈ hopNames n target := by simp [hopNames]

theorem column_mem_hopNames {f : Field} (hf : f ∈ target.fields) : f.column ∈ hopNames n target := by
  have hcolumn : f.column ∈ target.fields.map Field.column := List.mem_map_of_mem hf
  simp only [hopNames, List.mem_append, List.mem_cons]
  exact .inl (.inr hcolumn)

variable {n} {name : Text}

theorem relationship_mem_hopNames (target : Entity) (h : name ∈ n.relationship.names) :
    name ∈ hopNames n target := List.mem_append_right _ h

theorem mem_identifiers_of_hop (hn : n ∈ source.navigations) (htarget : target ∈ registry.entities)
    (h : name ∈ hopNames n target) : name ∈ source.identifiers ++ registry.identifiers := by
  rcases List.mem_append.mp h with hown | hforeign
  · refine List.mem_append_right _ (Registry.mem_identifiers htarget ?_)
    exact List.mem_append_left _ hown
  · exact List.mem_append_left _ (Entity.name_mem_identifiers hn hforeign)

end Hop

namespace Plan

variable {registry : Registry} {p : Plan} {n : Node}

theorem mem_selectedColumns {c : SelectedColumn} (h : c ∈ selectedColumns p) :
    (∃ f ∈ p.root.fields, c = rootColumn f) ∨
      ∃ n ∈ p.nodes, ∃ f ∈ n.target.fields, c = nodeColumn n f := by
  rw [selectedColumns] at h
  split at h
  · cases h
  · simpa [@eq_comm _ c] using h

-- The columns of the root and the names of all hops.
def names (p : Plan) : List Text :=
  p.root.fields.map Field.column ++ p.nodes.flatMap fun n => hopNames n.navigation n.target

theorem column_mem_names_of_root {f : Field} (hf : f ∈ p.root.fields) : f.column ∈ p.names :=
  List.mem_append_left _ (List.mem_map_of_mem hf)

theorem mem_names_of_node (hn : n ∈ p.nodes) {name : Text}
    (hname : name ∈ hopNames n.navigation n.target) : name ∈ p.names :=
  List.mem_append_right _ (List.mem_flatMap.mpr ⟨n, hn, hname⟩)

theorem Sound.column_mem_names_of_source (h : p.Sound registry) (hn : n ∈ p.nodes) {f : Field}
    (hf : f ∈ n.source.fields) : f.column ∈ p.names := by
  have hfits := h.fits n hn
  cases hparent : n.parent with
  | none => exact column_mem_names_of_root (hfits.source_of_root hparent ▸ hf)
  | some k =>
    obtain ⟨-, q, hq, -, hsource⟩ := hfits.source_of_parent k hparent
    exact mem_names_of_node hq (column_mem_hopNames q.navigation (hsource ▸ hf))

-- The names are identifiers of the root and of registered entities.
theorem Sound.mem_identifiers (h : p.Sound registry) {name : Text} (hname : name ∈ p.names) :
    name ∈ p.root.identifiers ++ registry.identifiers := by
  rcases List.mem_append.mp hname with hroot | hnode
  · obtain ⟨f, hf, rfl⟩ := List.mem_map.mp hroot
    exact List.mem_append_left _ (Entity.column_mem_identifiers hf)
  · obtain ⟨n, hn, hname⟩ := List.mem_flatMap.mp hnode
    have hhop := mem_identifiers_of_hop (h.navigation_mem hn) (h.target_mem hn) hname
    rcases h.source_eq_or_mem hn with hsource | hsource
    · exact hsource ▸ hhop
    · refine List.mem_append_right _ ((List.mem_append.mp hhop).elim (fun hown => ?_) id)
      exact Registry.mem_identifiers hsource hown

-- The names of the entities are good, and with them all aliases.
structure Vocabulary (Good : Text → Prop) (registry : Registry) (p : Plan) : Prop where
  sound : p.Sound registry
  names : ∀ t ∈ p.names, Good t
  aliasOf : ∀ number, Good (Node.aliasOf number)
  junctionAlias : ∀ n : Node, Good n.aliasName → Good n.junctionAlias
  columnAlias : ∀ number column, Good column → Good (columnAlias (Node.aliasOf number) column)

namespace Vocabulary

variable {Good : Text → Prop}

theorem selectedColumns (h : p.Vocabulary Good registry) :
    ∀ c ∈ selectedColumns p, ∀ t ∈ c.names, Good t := by
  intro c hc
  rcases mem_selectedColumns hc with ⟨f, hf, rfl⟩ | ⟨n, hn, f, hf, rfl⟩
  · have hcolumn := h.names f.column (column_mem_names_of_root hf)
    have halias := h.aliasOf 0
    rw [← Node.rootAlias_eq] at halias
    simp [SelectedColumn.names, rootColumn, hcolumn, halias]
  · have hcolumn := h.names f.column (mem_names_of_node hn (column_mem_hopNames _ hf))
    have halias := h.aliasOf n.number
    have hname := h.columnAlias n.number f.column hcolumn
    simp [SelectedColumn.names, nodeColumn, Node.aliasName, hcolumn, halias, hname]

theorem good_of_keyColumn {e : Entity} (h : ∀ f ∈ e.fields, Good f.column)
    (hkey : e.primaryKey?.isSome) : Good (keyColumn e) := by
  obtain ⟨f, hf⟩ := Option.isSome_iff_exists.mp hkey
  rw [keyColumn, hf]
  exact h f (Entity.mem_of_primaryKey? hf)

theorem joins (h : p.Vocabulary Good registry) : ∀ j ∈ joins p, ∀ t ∈ j.names, Good t := by
  rw [Include.joins, List.forall_mem_flatMap]
  intro n hn
  have hhop : ∀ t ∈ hopNames n.navigation n.target, Good t := fun t ht =>
    h.names t (mem_names_of_node hn ht)
  have hsource : ∀ f ∈ n.source.fields, Good f.column := fun f hf =>
    h.names f.column (h.sound.column_mem_names_of_source hn hf)
  have htarget : ∀ f ∈ n.target.fields, Good f.column := fun f hf =>
    hhop f.column (column_mem_hopNames _ hf)
  have htable := hhop n.target.table (table_mem_hopNames ..)
  have halias : Good n.aliasName := h.aliasOf n.number
  have hjunction := h.junctionAlias n halias
  have habove := h.aliasOf (n.parent.getD 0)
  rw [← Node.parentAlias_eq] at habove
  have hforeign : ∀ t ∈ n.navigation.relationship.names, Good t := fun t ht =>
    hhop t (relationship_mem_hopNames _ ht)
  have hkeys := checkKeys_eq_ok.mp (h.sound.fits n hn).keys
  cases hkind : n.navigation.relationship with
  | reference column =>
    simp only [Joinable, hkind] at hkeys
    have hkey := good_of_keyColumn htarget hkeys.2
    simp only [hkind, Relationship.names, List.forall_mem_singleton] at hforeign
    simp [joinsOf, hkind, Join.names, htable, halias, habove, hkey, hforeign]
  | collection column =>
    simp only [Joinable, hkind] at hkeys
    have hkey := good_of_keyColumn hsource hkeys.2
    simp only [hkind, Relationship.names, List.forall_mem_singleton] at hforeign
    simp [joinsOf, hkind, Join.names, htable, halias, habove, hkey, hforeign]
  | manyToMany junction parentColumn targetColumn =>
    simp only [Joinable, hkind] at hkeys
    have hkey := good_of_keyColumn hsource hkeys.1
    have hkey' := good_of_keyColumn htarget hkeys.2
    simp only [hkind, Relationship.names, List.forall_mem_cons] at hforeign
    obtain ⟨htable', hparent, htarget_column, -⟩ := hforeign
    simp [joinsOf, hkind, Join.names, htable, halias, habove, hjunction, hkey, hkey', htable',
      hparent, htarget_column]

end Vocabulary

-- All of the names stand in the texts of a plan.

theorem exists_join_of_hop {name : Text} (hname : name ∈ hopNames n.navigation n.target) :
    (∃ f ∈ n.target.fields, f.column = name) ∨ ∃ j ∈ joinsOf n, name ∈ j.names := by
  rw [hopNames, List.cons_append, List.mem_cons, List.mem_append, List.mem_map] at hname
  rcases hname with rfl | hcolumn | hforeign
  · right
    cases hkind : n.navigation.relationship <;> simp [joinsOf, hkind, Join.names]
  · exact .inl hcolumn
  · right
    cases hkind : n.navigation.relationship with
    | reference column =>
      obtain rfl : name = column := by simpa [hkind, Relationship.names] using hforeign
      simp [joinsOf, hkind, Join.names]
    | collection column =>
      obtain rfl : name = column := by simpa [hkind, Relationship.names] using hforeign
      simp [joinsOf, hkind, Join.names]
    | manyToMany junction parentColumn targetColumn =>
      simp only [hkind, Relationship.names, List.mem_cons, List.not_mem_nil, or_false] at hforeign
      rcases hforeign with rfl | rfl | rfl <;> simp [joinsOf, hkind, Join.names]

theorem forall_names {Good : Text → Prop} (hnodes : p.nodes ≠ [])
    (hcolumns : ∀ c ∈ selectedColumns p, ∀ t ∈ c.names, Good t)
    (hjoins : ∀ j ∈ joins p, ∀ t ∈ j.names, Good t) : ∀ t ∈ p.names, Good t := by
  have hempty : p.isEmpty = false := by simpa [isEmpty] using hnodes
  have hselected : selectedColumns p = p.root.fields.map rootColumn ++
      p.nodes.flatMap fun n => n.target.fields.map (nodeColumn n) := by
    rw [selectedColumns, hempty, if_neg Bool.false_ne_true]
  rw [hselected, List.forall_mem_append] at hcolumns
  obtain ⟨hroot, hown⟩ := hcolumns
  rw [names, List.forall_mem_append]
  constructor
  · rw [List.forall_mem_map]
    intro f hf
    exact hroot (rootColumn f) (List.mem_map_of_mem hf) f.column (by simp [rootColumn, SelectedColumn.names])
  · rw [List.forall_mem_flatMap]
    intro n hn t ht
    rcases exists_join_of_hop ht with ⟨f, hf, rfl⟩ | ⟨j, hj, htj⟩
    · exact hown (nodeColumn n f) (List.mem_flatMap.mpr ⟨n, hn, List.mem_map_of_mem hf⟩) f.column
        (by simp [nodeColumn, SelectedColumn.names])
    · exact hjoins j (List.mem_flatMap.mpr ⟨n, hn, hj⟩) t htj

end Plan

-- Names that can be quoted.

open EntitySql.Sql (identifierFault? identifierSegmentFault?)

theorem identifierFault?_eq_none {name : Text} : identifierFault? name = none ↔
    ∀ piece ∈ Text.split Byte.dot name, piece ≠ [] ∧ Byte.nul ∉ piece := by
  rw [identifierFault?, List.findSome?_eq_none_iff]
  refine forall₂_congr fun piece _ => ?_
  cases piece with
  | nil => simp [identifierSegmentFault?]
  | cons c rest => simp [identifierSegmentFault?]

section Words

variable {word name : Text} (hword : word.all isWordByte = true)

include hword

theorem not_mem_of_word {c : UInt8} (hc : isWordByte c = false) : c ∉ word := by
  intro hmem
  rw [List.all_eq_true.mp hword c hmem] at hc
  cases hc

theorem identifierFault?_append (h : identifierFault? name = none) :
    identifierFault? (word ++ name) = none := by
  obtain ⟨piece, pieces, hpieces, hsplit⟩ :=
    Text.split_append_of_not_mem (not_mem_of_word hword (c := Byte.dot) rfl) name
  rw [identifierFault?_eq_none, hpieces, List.forall_mem_cons] at h
  obtain ⟨⟨hne, hnul⟩, hrest⟩ := h
  rw [identifierFault?_eq_none, hsplit, List.forall_mem_cons]
  have hword_nul := not_mem_of_word hword (c := Byte.nul) rfl
  exact ⟨⟨by simp [hne], by simp [hword_nul, hnul]⟩, hrest⟩

theorem identifierFault?_of_word (hne : word ≠ []) : identifierFault? word = none := by
  rw [identifierFault?_eq_none, Text.split_of_not_mem (not_mem_of_word hword (c := Byte.dot) rfl),
    List.forall_mem_singleton]
  exact ⟨hne, not_mem_of_word hword rfl⟩

end Words

theorem checkNames_eq_ok {names : List Text} :
    checkNames names = .ok () ↔ ∀ name ∈ names, identifierFault? name = none := by
  rw [checkNames, ← List.findSome?_eq_none_iff]
  cases names.findSome? identifierFault? <;> simp

namespace Node

theorem all_isWordByte_aliasOf (number : Nat) : (aliasOf number).all isWordByte = true := by
  have hdigits : (Text.ofNat number).all isWordByte = true := List.all_eq_true.mpr fun c hc => by
    simp [isWordByte, Byte.isAlphanumeric, Text.isDigit_of_mem_ofNat hc]
  rw [aliasOf, List.all_append, hdigits]
  rfl

theorem identifierFault?_aliasOf (number : Nat) : identifierFault? (aliasOf number) = none :=
  identifierFault?_of_word (all_isWordByte_aliasOf number) (by simp [aliasOf, Text.ofNat_ne_nil])

end Node

namespace Plan

variable {registry : Registry} {p : Plan}

theorem selectList_eq_ok {columns : List Text} : selectList p = .ok columns ↔
    (∀ c ∈ selectedColumns p, ∀ t ∈ c.names, identifierFault? t = none) ∧
      columns = (selectedColumns p).map SelectedColumn.text := by
  rw [selectList, Result.bind_eq_ok, ← List.forall_mem_flatMap, ← checkNames_eq_ok]
  constructor
  · rintro ⟨⟨⟩, hcheck, hcolumns⟩
    exact ⟨hcheck, (Except.ok.inj hcolumns).symm⟩
  · rintro ⟨hcheck, rfl⟩
    exact ⟨(), hcheck, rfl⟩

theorem joinClauses_eq_ok {clauses : List Text} : joinClauses p = .ok clauses ↔
    (∀ j ∈ joins p, ∀ t ∈ j.names, identifierFault? t = none) ∧
      clauses = (joins p).map Join.text := by
  rw [joinClauses, Result.bind_eq_ok, ← List.forall_mem_flatMap, ← checkNames_eq_ok]
  constructor
  · rintro ⟨⟨⟩, hcheck, hclauses⟩
    exact ⟨hcheck, (Except.ok.inj hclauses).symm⟩
  · rintro ⟨hcheck, rfl⟩
    exact ⟨(), hcheck, rfl⟩

theorem Sound.quotable (h : p.Sound registry) (hnames : ∀ t ∈ p.names, identifierFault? t = none) :
    p.Vocabulary (identifierFault? · = none) registry where
  sound := h
  names := hnames
  aliasOf := Node.identifierFault?_aliasOf
  junctionAlias _ halias := identifierFault?_append (by decide) halias
  columnAlias number column hcolumn := by
    have hunderscore : [Byte.underscore].all isWordByte = true := by decide
    exact identifierFault?_append (Node.all_isWordByte_aliasOf number)
      (identifierFault?_append hunderscore hcolumn)

variable {maxDepth : Int} {root : Entity} {paths : List Text}

theorem make_eq_ok : make registry maxDepth root paths = .ok p ↔
    ofPaths registry maxDepth root paths = .ok p ∧
      selectList p = .ok ((selectedColumns p).map SelectedColumn.text) ∧
      joinClauses p = .ok ((joins p).map Join.text) := by
  simp only [make, Result.bind_eq_ok]
  constructor
  · rintro ⟨q, hq, columns, hcolumns, clauses, hclauses, heq⟩
    cases heq
    obtain rfl := (selectList_eq_ok.mp hcolumns).2
    obtain rfl := (joinClauses_eq_ok.mp hclauses).2
    exact ⟨hq, hcolumns, hclauses⟩
  · rintro ⟨hp, hcolumns, hclauses⟩
    exact ⟨p, hp, _, hcolumns, _, hclauses, rfl⟩

-- The texts of a plan can be written just when its names can be quoted.
theorem Sound.texts_iff (h : p.Sound registry) :
    (selectList p = .ok ((Include.selectedColumns p).map SelectedColumn.text) ∧
      joinClauses p = .ok ((Include.joins p).map Join.text)) ↔
        (p.nodes = [] ∨ ∀ t ∈ p.names, identifierFault? t = none) := by
  simp only [selectList_eq_ok, joinClauses_eq_ok, and_true]
  constructor
  · rintro ⟨hcolumns, hjoins⟩
    exact (eq_or_ne p.nodes []).imp_right fun hnodes => forall_names hnodes hcolumns hjoins
  · rintro (hempty | hnames)
    · simp [selectedColumns, isEmpty, joins, hempty]
    · have hquotable := h.quotable hnames
      exact ⟨hquotable.selectedColumns, hquotable.joins⟩

theorem ofPaths_of_make (h : make registry maxDepth root paths = .ok p) :
    ofPaths registry maxDepth root paths = .ok p := (make_eq_ok.mp h).1

end Plan

end EntitySql.Include
